import Mathlib.Algebra.Ring.Int.Defs
import Mathlib.Algebra.Ring.Nat
import Mathlib.Data.List.Basic
import Mathlib.Data.String.Basic
import Tributary.Word

/-!
# Text

Strings and byte buffers as lists of characters, and the ways the code cuts them
into lines: `read_until` takes the next line with its newline, `split_inclusive`
cuts a whole body so, and `lines` drops the line ends.
-/

namespace Tributary

abbrev Text := List Char

namespace Text

instance decidableMem (t : Text) (ts : List Text) : Decidable (t ∈ ts) := inferInstance

/-- `reader.read_until(b'\n', ..)`: the bytes up to the next newline, with it. -/
def readUntil : Text → Text
  | [] => []
  | c :: cs => if c = '\n' then [c] else c :: readUntil cs

/-- `body.split_inclusive('\n')`. -/
def splitInclusive : Text → List Text
  | [] => []
  | c :: cs =>
      if c = '\n' then [c] :: splitInclusive cs
      else
        match splitInclusive cs with
        | [] => [[c]]
        | l :: ls => (c :: l) :: ls

/-- A line without its `\n`, or its `\r\n`. -/
def stripEol (l : Text) : Text :=
  match l.reverse with
  | '\n' :: '\r' :: rest => rest.reverse
  | '\n' :: rest => rest.reverse
  | _ => l

/-- `body.lines()`. -/
def lines (body : Text) : List Text := (splitInclusive body).map stripEol

/-- Every line of the text has its newline. -/
def Complete (t : Text) : Prop := t = [] ∨ t.getLast? = some '\n'

instance : DecidablePred Complete := fun t =>
  inferInstanceAs (Decidable (t = [] ∨ t.getLast? = some '\n'))

/-- `str::len`: bytes in UTF-8. -/
def utf8Len (t : Text) : Nat := (t.map Char.utf8Size).sum

/-! ## Numbers and spaces -/

/-- `char::is_whitespace`. -/
def isWhitespace (c : Char) : Bool :=
  (9 ≤ c.toNat && c.toNat ≤ 13) || (0x2000 ≤ c.toNat && c.toNat ≤ 0x200A)
    || [0x20, 0x85, 0xA0, 0x1680, 0x2028, 0x2029, 0x202F, 0x205F, 0x3000].contains c.toNat

/-- `str::trim`. -/
def trim (t : Text) : Text :=
  ((t.dropWhile isWhitespace).reverse.dropWhile isWhitespace).reverse

/-- A number in decimal, as `Display` prints it. -/
def ofInt : Int → Text
  | .ofNat n => Nat.toDigits 10 n
  | .negSucc n => '-' :: Nat.toDigits 10 (n + 1)

/-- `str::parse::<i64>`: an optional sign, then digits, in range. -/
def parseI64 (t : Text) : Option Int :=
  let (negative, ds) := match t with
    | '-' :: rest => (true, rest)
    | '+' :: rest => (false, rest)
    | rest => (false, rest)
  if ds ≠ [] ∧ ds.all Char.isDigit then
    let n : Int := ds.foldl (fun acc c => acc * 10 + (c.toNat - 48)) 0
    let v := if negative then -n else n
    if FitsI64 v then some v else none
  else none

theorem isDigit_of_mem_toDigits {n : Nat} {c : Char} (h : c ∈ Nat.toDigits 10 n) :
    c.isDigit = true :=
  Nat.isDigit_of_mem_toDigits (by decide) (by decide) h

/-- A printed number ends with a digit. -/
theorem exists_getLast_ofInt (n : Int) : ∃ c, (ofInt n).getLast? = some c ∧ c.isDigit = true := by
  have hdigits : ∀ k : Nat, ∃ c, (Nat.toDigits 10 k).getLast? = some c ∧ c.isDigit = true := by
    intro k
    have hne : Nat.toDigits 10 k ≠ [] := List.ne_nil_of_length_pos Nat.length_toDigits_pos
    exact ⟨_, List.getLast?_eq_getLast_of_ne_nil hne,
      isDigit_of_mem_toDigits (List.getLast_mem hne)⟩
  cases n with
  | ofNat k => exact hdigits k
  | negSucc k =>
      obtain ⟨c, hc, hd⟩ := hdigits (k + 1)
      exact ⟨c, by rw [ofInt, List.getLast?_cons, hc]; rfl, hd⟩

/-! ## Printable texts -/

/-- No character below the space. -/
def Printable (t : Text) : Prop := ∀ c ∈ t, 0x20 ≤ c.toNat

theorem Printable.append {s t : Text} (hs : Printable s) (ht : Printable t) :
    Printable (s ++ t) := fun c hc => (List.mem_append.mp hc).elim (hs c) (ht c)

theorem Printable.cons {c : Char} {t : Text} (hc : 0x20 ≤ c.toNat) (ht : Printable t) :
    Printable (c :: t) := by
  intro d hd
  rcases List.mem_cons.mp hd with rfl | hd
  · exact hc
  · exact ht d hd

theorem Printable.flatMap {α : Type} {xs : List α} {f : α → Text}
    (h : ∀ x ∈ xs, Printable (f x)) : Printable (xs.flatMap f) := by
  intro c hc
  obtain ⟨x, hx, hm⟩ := List.mem_flatMap.mp hc
  exact h x hx c hm

theorem printable_ofInt (n : Int) : Printable (ofInt n) := by
  have hdigits : ∀ k : Nat, Printable (Nat.toDigits 10 k) := by
    intro k c hc
    have hd := isDigit_of_mem_toDigits hc
    simp only [Char.isDigit, Bool.and_eq_true, decide_eq_true_eq, ge_iff_le,
      UInt32.le_iff_toNat_le] at hd
    have hzero : '0'.val.toNat = 48 := rfl
    simp only [Char.toNat]
    omega
  cases n with
  | ofNat k => exact hdigits k
  | negSucc k => exact (hdigits (k + 1)).cons (by decide)

/-- Without its newline, a line that does not end in `\r` is what stood before
it. -/
theorem stripEol_concat {t : Text} (h : t.getLast? ≠ some '\r') :
    stripEol (t ++ ['\n']) = t := by
  rcases List.eq_nil_or_concat t with rfl | ⟨u, c, rfl⟩
  · rfl
  · have hc : c ≠ '\r' := by
      rintro rfl
      exact h (by simp)
    simp only [stripEol, List.concat_eq_append, List.append_assoc, List.reverse_append,
      List.reverse_cons, List.reverse_nil, List.nil_append, List.cons_append]
    split
    · rename_i heq
      simp only [List.cons.injEq, true_and] at heq
      exact absurd heq.1 hc
    · rename_i heq
      simp only [List.cons.injEq, true_and] at heq
      rw [← heq]
      simp
    · rename_i hno
      exact absurd rfl (hno _)

theorem Printable.getLast_ne {t : Text} (h : Printable t) : t.getLast? ≠ some '\r' := by
  intro hl
  have := h _ (List.mem_of_getLast? hl)
  exact absurd this (by decide)

/-! ## Cutting line by line -/

/-- A line is cut off whole. -/
theorem splitInclusive_append_newline {t : Text} (h : '\n' ∉ t) (rest : Text) :
    splitInclusive (t ++ '\n' :: rest) = (t ++ ['\n']) :: splitInclusive rest := by
  induction t with
  | nil => rfl
  | cons c t ih =>
      rw [List.mem_cons, not_or] at h
      rw [List.cons_append, splitInclusive, if_neg (Ne.symm h.1), ih h.2]
      rfl

theorem lines_append_newline {t : Text} (h : '\n' ∉ t) (rest : Text) :
    lines (t ++ '\n' :: rest) = stripEol (t ++ ['\n']) :: lines rest := by
  rw [lines, splitInclusive_append_newline h, List.map_cons]
  rfl

theorem Printable.newline_not_mem {t : Text} (h : Printable t) : '\n' ∉ t := fun hmem =>
  absurd (h _ hmem) (by decide)

theorem Printable.splitInclusive {t : Text} (h : Printable t) (rest : Text) :
    splitInclusive (t ++ '\n' :: rest) = (t ++ ['\n']) :: splitInclusive rest :=
  splitInclusive_append_newline h.newline_not_mem rest

theorem Printable.lines {t : Text} (h : Printable t) (rest : Text) :
    lines (t ++ '\n' :: rest) = t :: lines rest := by
  rw [lines_append_newline h.newline_not_mem, stripEol_concat h.getLast_ne]

@[simp] theorem lines_nil : lines [] = [] := rfl

theorem splitInclusive_ne_nil {t : Text} (h : t ≠ []) : splitInclusive t ≠ [] := by
  cases t with
  | nil => exact absurd rfl h
  | cons c cs =>
      rw [splitInclusive]
      split
      · simp
      · split <;> simp

theorem lines_eq_nil_iff {t : Text} : lines t = [] ↔ t = [] := by
  constructor
  · intro h
    by_contra hne
    exact splitInclusive_ne_nil hne (List.map_eq_nil_iff.mp h)
  · rintro rfl
    rfl

theorem readUntil_ne_nil {t : Text} (h : t ≠ []) : readUntil t ≠ [] := by
  cases t with
  | nil => exact absurd rfl h
  | cons c cs =>
      rw [readUntil]
      split <;> simp

theorem length_readUntil_le (t : Text) : (readUntil t).length ≤ t.length := by
  induction t with
  | nil => exact Nat.le_refl _
  | cons c cs ih =>
      rw [readUntil]
      split
      · simp
      · simpa using ih

/-- The first line is what `read_until` reads, the others what comes after. -/
theorem splitInclusive_eq_cons {t : Text} (h : t ≠ []) :
    splitInclusive t = readUntil t :: splitInclusive (t.drop (readUntil t).length) := by
  induction t with
  | nil => exact absurd rfl h
  | cons c cs ih =>
      rw [splitInclusive, readUntil]
      by_cases hc : c = '\n'
      · rw [if_pos hc, if_pos hc]
        rfl
      · rw [if_neg hc, if_neg hc, List.length_cons, List.drop_succ_cons]
        cases cs with
        | nil => rfl
        | cons d ds => rw [ih (by simp)]

theorem lines_eq_cons {t : Text} (h : t ≠ []) :
    lines t = stripEol (readUntil t) :: lines (t.drop (readUntil t).length) := by
  rw [lines, splitInclusive_eq_cons h, List.map_cons]
  rfl

theorem readUntil_of_notMem {t : Text} (h : '\n' ∉ t) : readUntil t = t := by
  induction t with
  | nil => rfl
  | cons c cs ih =>
      obtain ⟨hc, hcs⟩ := not_or.mp (List.mem_cons.not.mp h)
      rw [readUntil, if_neg (Ne.symm hc), ih hcs]

theorem stripEol_of_notMem {t : Text} (h : '\n' ∉ t) : stripEol t = t := by
  rw [stripEol]
  split
  · rename_i hrev
    exact absurd (List.mem_reverse.mp (hrev ▸ List.mem_cons_self ..)) h
  · rename_i hrev
    exact absurd (List.mem_reverse.mp (hrev ▸ List.mem_cons_self ..)) h
  · rfl

/-- Without a newline a text is one line. -/
theorem lines_of_notMem {t : Text} (h : '\n' ∉ t) (hne : t ≠ []) : lines t = [t] := by
  rw [lines_eq_cons hne, readUntil_of_notMem h, stripEol_of_notMem h, List.drop_length, lines_nil]

theorem stripEol_return (t : Text) : stripEol (t ++ ['\r'] ++ ['\n']) = t := by
  simp [stripEol]

/-- A line holds no newline. -/
theorem newline_not_mem_of_mem_lines {t l : Text} (h : l ∈ lines t) : '\n' ∉ l := by
  induction hlen : t.length using Nat.strongRecOn generalizing t with
  | ind n ih =>
      by_cases hmem : '\n' ∈ t
      · obtain ⟨u, rest, rfl, hu⟩ := List.eq_append_cons_of_mem hmem
        rw [lines_append_newline hu] at h
        rcases List.mem_cons.mp h with rfl | h
        · by_cases hreturn : u.getLast? = some '\r'
          · obtain ⟨v, rfl⟩ := List.getLast?_eq_some_iff.mp hreturn
            rw [stripEol_return]
            exact fun hv => hu (List.mem_append_left _ hv)
          · rwa [stripEol_concat hreturn]
        · rw [List.length_append, List.length_cons] at hlen
          exact ih rest.length (by omega) h rfl
      · by_cases hne : t = []
        · rw [hne] at h
          exact absurd h List.not_mem_nil
        · rw [lines_of_notMem hmem hne, List.mem_singleton] at h
          rwa [h]

/-! ## Complete texts -/

theorem Complete.nil : Complete [] := .inl rfl

theorem Complete.tail {c : Char} {cs : Text} (h : Complete (c :: cs)) : Complete cs := by
  cases cs with
  | nil => exact .nil
  | cons d ds => exact .inr (by simpa [Complete] using h)

theorem Complete.drop {t : Text} (h : Complete t) (n : Nat) : Complete (t.drop n) := by
  induction n generalizing t with
  | zero => exact h
  | succ n ih =>
      cases t with
      | nil => exact .nil
      | cons c cs => exact ih h.tail

theorem Complete.append {s t : Text} (hs : Complete s) (ht : Complete t) :
    Complete (s ++ t) := by
  rcases ht with rfl | ht
  · rwa [List.append_nil]
  · exact .inr (by simp [ht])

/-- In a complete text `read_until` reads a whole line. -/
theorem Complete.readUntil {t : Text} (h : Complete t) (hne : t ≠ []) :
    (readUntil t).getLast? = some '\n' := by
  induction t with
  | nil => exact absurd rfl hne
  | cons c cs ih =>
      rw [Text.readUntil]
      by_cases hc : c = '\n'
      · rw [if_pos hc, hc]
        rfl
      · rw [if_neg hc]
        have hcs : cs ≠ [] := by
          rintro rfl
          exact hc (by simpa [Complete] using h)
        rw [List.getLast?_cons, ih h.tail hcs]
        rfl

/-- Text after complete lines starts a new line. -/
theorem Complete.splitInclusive_append {s : Text} (h : Complete s) (t : Text) :
    splitInclusive (s ++ t) = splitInclusive s ++ splitInclusive t := by
  induction s with
  | nil => rfl
  | cons c cs ih =>
      rw [List.cons_append, splitInclusive, splitInclusive, ih h.tail]
      by_cases hc : c = '\n'
      · rw [if_pos hc, if_pos hc, List.cons_append]
      · rw [if_neg hc, if_neg hc]
        have hcs : cs ≠ [] := by
          rintro rfl
          exact hc (by simpa [Complete] using h)
        rw [splitInclusive_eq_cons hcs, List.cons_append]
        rfl

theorem Complete.lines_append {s : Text} (h : Complete s) (t : Text) :
    lines (s ++ t) = lines s ++ lines t := by
  rw [lines, h.splitInclusive_append, List.map_append]
  rfl

end Text

end Tributary
