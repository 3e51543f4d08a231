import Tributary.Config.File
import Tributary.K8s.Grammar

/-!
# Size and duration literals

A literal is a number before a unit. `parse_size` and `parse_duration` read the number as a
`u64` and multiply it with the unit, in a product that nothing checks.
-/

namespace Tributary.LogFile

open Config

/-! ## The parsers -/

/-- How the build computes a product that leaves `u64`. -/
inductive Build where
  | debug
  | release
deriving DecidableEq, Repr

inductive Parsed where
  | refused
  | value (n : Nat)
  | panics
deriving DecidableEq, Repr

/-- `n * mult`. -/
def Build.mul (b : Build) (n mult : Nat) : Parsed :=
  if n * mult < 2 ^ 64 then .value (n * mult)
  else
    match b with
    | .debug => .panics
    | .release => .value (n * mult % 2 ^ 64)

/-- `&s[..n]`, or `none` where that cuts a character in two. -/
def sliceTo : Text → Nat → Option Text
  | _, 0 => some []
  | [], _ + 1 => none
  | c :: t, n =>
      if c.utf8Size ≤ n then (sliceTo t (n - c.utf8Size)).map (c :: ·) else none

/-- A number above zero before a unit. -/
def scaled (b : Build) (num : Text) (mult : Nat) : Parsed :=
  match (parseU64 num.trim).filter (0 < ·) with
  | none => .refused
  | some n => b.mul n mult

def sizeUnits : List (String × Nat) :=
  [("GiB", 1024 ^ 3), ("MiB", 1024 ^ 2), ("KiB", 1024), ("GB", 1000000000), ("MB", 1000000),
    ("KB", 1000), ("B", 1)]

def durationUnits : List (String × Nat) := [("d", 86400), ("h", 3600), ("m", 60), ("s", 1)]

def parseSize (b : Build) (s : Text) : Parsed :=
  scaled b (unit s.trim sizeUnits).1 (unit s.trim sizeUnits).2

/-- The text without its last byte, before a unit. -/
def parseCut (b : Build) (t : Text) (mult : Nat) : Parsed :=
  match sliceTo t (t.utf8Len - 1) with
  | none => .panics
  | some num => scaled b num mult

def parseDuration (b : Build) (s : Text) : Parsed :=
  match s.trim.getLast? with
  | none => .refused
  | some 'd' => parseCut b s.trim 86400
  | some 'h' => parseCut b s.trim 3600
  | some 'm' => parseCut b s.trim 60
  | some 's' => parseCut b s.trim 1
  | some _ => scaled b s.trim 1

/-! ## What a literal says -/

/-- A number in decimal digits, with or without a plus sign. -/
def Numeral (t : Text) (n : Nat) : Prop :=
  ∃ ds : Text, (t = ds ∨ t = '+' :: ds) ∧ ds ≠ [] ∧ ds.all Char.isDigit = true ∧
    n = ds.foldl (fun acc c => acc * 10 + (c.toNat - 48)) 0

/-- The literal is the positive number `n` in a unit of `mult`, the last unit being none. -/
def Written (units : List (String × Nat)) (s : Text) (n mult : Nat) : Prop :=
  ∃ (num : Text) (u : String), (u, mult) ∈ units ++ [("", 1)] ∧ s.trim = num ++ u.toList ∧
    Numeral num.trim n ∧ 0 < n

/-- The answer is a refusal, or the product the literal says. -/
def Exact (units : List (String × Nat)) (s : Text) : Parsed → Prop
  | .refused => True
  | .value v => ∃ n mult, Written units s n mult ∧ v = n * mult
  | .panics => False

/-- A number that `u64` holds gives a product that `u64` holds. -/
def Fits (units : List (String × Nat)) (s : Text) : Prop :=
  ∀ n mult, Written units s n mult → n < 2 ^ 64 → n * mult < 2 ^ 64

/-! ## Numbers -/

variable {s t num : Text} {n m mult mult' : Nat} {b : Build} {units : List (String × Nat)}

/-- The digits behind the sign. -/
theorem parseU64_eq (t : Text) :
    ∃ ds : Text, (t = ds ∧ t.head? ≠ some '+' ∨ t = '+' :: ds) ∧
      parseU64 t = if ds ≠ [] ∧ ds.all Char.isDigit = true then
        if ds.foldl (fun acc c => acc * 10 + (c.toNat - 48)) 0 < 2 ^ 64 then
          some (ds.foldl (fun acc c => acc * 10 + (c.toNat - 48)) 0)
        else none
      else none := by
  cases t with
  | nil => exact ⟨[], .inl ⟨rfl, by simp⟩, rfl⟩
  | cons c t =>
      by_cases hc : c = '+'
      · subst hc
        exact ⟨t, .inr rfl, rfl⟩
      · refine ⟨c :: t, .inl ⟨rfl, by simpa using hc⟩, ?_⟩
        unfold parseU64
        split
        · rename_i heq
          exact absurd (List.cons.inj heq).1 hc
        · rfl

theorem Numeral.digits {ds : Text} (h : Numeral t n)
    (ht : t = ds ∧ t.head? ≠ some '+' ∨ t = '+' :: ds) :
    ds ≠ [] ∧ ds.all Char.isDigit = true ∧
      n = ds.foldl (fun acc c => acc * 10 + (c.toNat - 48)) 0 := by
  obtain ⟨ds', ht', hne, hall, rfl⟩ := h
  rcases ht with ⟨rfl, hplus⟩ | rfl <;> rcases ht' with h | h
  · exact ⟨h ▸ hne, h ▸ hall, by rw [h]⟩
  · rw [h] at hplus
    exact absurd rfl hplus
  · -- a plus sign is no digit
    rw [← h] at hall
    simp at hall
  · rw [(List.cons.inj h).2]
    exact ⟨hne, hall, rfl⟩

theorem parseU64_eq_some_iff : parseU64 t = some n ↔ Numeral t n ∧ n < 2 ^ 64 := by
  obtain ⟨ds, ht, heq⟩ := parseU64_eq t
  rw [heq]
  constructor
  · intro h
    split at h
    · rename_i hds
      split at h
      · rename_i hlt
        cases h
        exact ⟨⟨ds, ht.imp And.left id, hds.1, hds.2, rfl⟩, hlt⟩
      · cases h
    · cases h
  · rintro ⟨hn, hlt⟩
    obtain ⟨hne, hall, rfl⟩ := hn.digits ht
    rw [if_pos ⟨hne, hall⟩, if_pos hlt]

/-- The last character that is no space stays the last. -/
theorem getLast_trim {c : Char} (h : t.getLast? = some c) (hc : Text.isWhitespace c = false) :
    t.trim.getLast? = some c := by
  obtain ⟨t, rfl⟩ := List.getLast?_eq_some_iff.mp h
  have hdrop : (t ++ [c]).dropWhile Text.isWhitespace
      = t.dropWhile Text.isWhitespace ++ [c] := by
    rw [List.dropWhile_append]
    split
    · rename_i hnil
      rw [List.isEmpty_iff.mp hnil, List.dropWhile_cons, hc]
      rfl
    · rfl
  rw [Text.trim, hdrop, List.reverse_append, List.reverse_singleton, List.singleton_append,
    List.dropWhile_cons, hc]
  simp

theorem Numeral.getLast (h : Numeral t n) : ∃ c, t.getLast? = some c ∧ c.isDigit = true := by
  obtain ⟨ds, ht, hne, hall, -⟩ := h
  refine ⟨ds.getLast hne, ?_, List.all_eq_true.mp hall _ (List.getLast_mem hne)⟩
  rcases ht with rfl | rfl
  · exact List.getLast?_eq_getLast_of_ne_nil hne
  · rw [List.getLast?_cons, List.getLast?_eq_getLast_of_ne_nil hne]
    rfl

theorem Numeral.unique (h : Numeral t n) (h' : Numeral t m) : n = m := by
  obtain ⟨ds, ht, -⟩ := parseU64_eq t
  rw [(h.digits ht).2.2, (h'.digits ht).2.2]

/-! ## Units -/

/-- The units are told from the number before them, and a longer one is looked for before a
shorter one it ends in. -/
structure Told (units : List (String × Nat)) : Prop where
  letters : ∀ u ∈ units, ∀ c ∈ u.1.toList, Text.isWhitespace c = false ∧ c.isDigit = false
  order : units.Pairwise fun u v => ¬ u.1.toList <:+ v.1.toList

theorem letters_of_all
    (h : (units.all fun u => u.1.toList.all fun c =>
      !Text.isWhitespace c && !c.isDigit) = true) :
    ∀ u ∈ units, ∀ c ∈ u.1.toList, Text.isWhitespace c = false ∧ c.isDigit = false := by
  simpa only [List.all_eq_true, Bool.and_eq_true, Bool.not_eq_true'] using h

theorem told_sizeUnits : Told (sizeUnits ++ [("", 1)]) := ⟨letters_of_all rfl, by decide⟩

theorem told_durationUnits : Told (durationUnits ++ [("", 1)]) := ⟨letters_of_all rfl, by decide⟩

/-- A number does not end with a piece of a unit. -/
theorem Numeral.no_letters {a : Text} (h : Numeral (num ++ a).trim n)
    (ha : ∀ c ∈ a, Text.isWhitespace c = false ∧ c.isDigit = false) : a = [] := by
  rcases List.eq_nil_or_concat a with rfl | ⟨a, c, rfl⟩
  · rfl
  obtain ⟨hspace, hdigit⟩ := ha c (by simp)
  obtain ⟨d, hd, hdd⟩ := h.getLast
  rw [getLast_trim (c := c) (by simp) hspace] at hd
  obtain rfl := Option.some.inj hd
  rw [hdigit] at hdd
  cases hdd

/-- **The unit that is written is the one that is found.** -/
theorem unit_eq {u : String} (hunits : Told (units ++ [("", 1)]))
    (hu : (u, mult) ∈ units ++ [("", 1)]) (ht : t = num ++ u.toList) (hn : Numeral num.trim n) :
    unit t units = (num, mult) := by
  induction units with
  | nil =>
      cases List.mem_singleton.mp hu
      rw [ht]
      simp [unit]
  | cons v units ih =>
      obtain ⟨v, m⟩ := v
      have hrest : Told (units ++ [("", 1)]) :=
        ⟨fun x hx => hunits.letters x (List.mem_cons_of_mem _ hx),
          (List.pairwise_cons.mp hunits.order).2⟩
      have hfirst := (List.pairwise_cons.mp hunits.order).1
      rw [unit]
      cases hstrip : K8s.stripSuffix t v.toList with
      | none =>
          rcases List.mem_cons.mp hu with h | h
          · cases h
            rw [K8s.stripSuffix_eq_some_iff.mpr ht] at hstrip
            cases hstrip
          · exact ih hrest h
      | some num' =>
          rw [K8s.stripSuffix_eq_some_iff] at hstrip
          rcases List.mem_cons.mp hu with h | h
          · cases h
            rw [List.append_cancel_right (hstrip.symm.trans ht)]
          · -- the unit that is written stands later, so it ends in no earlier one
            exfalso
            rcases List.append_eq_append_iff.mp (ht.symm.trans hstrip) with
              ⟨a, hnum, hsuffix⟩ | ⟨a, hnum, hsuffix⟩
            · exact hfirst _ h ⟨a, hsuffix.symm⟩
            · rw [hnum] at hn
              have ha := hn.no_letters fun c hc =>
                hunits.letters (v, m) (List.mem_cons_self ..) c
                  (show c ∈ v.toList from hsuffix ▸ List.mem_append_left _ hc)
              rw [ha, List.nil_append] at hsuffix
              exact hfirst _ h ⟨[], by rw [List.nil_append]; exact hsuffix⟩

theorem unit_mem (t : Text) (units : List (String × Nat)) :
    ∃ u, (u, (unit t units).2) ∈ units ++ [("", 1)] ∧ t = (unit t units).1 ++ u.toList := by
  induction units with
  | nil => exact ⟨"", List.mem_singleton_self _, by simp [unit]⟩
  | cons v units ih =>
      obtain ⟨v, m⟩ := v
      rw [unit]
      cases hstrip : K8s.stripSuffix t v.toList with
      | none =>
          obtain ⟨u, hu, ht⟩ := ih
          exact ⟨u, List.mem_cons_of_mem _ hu, ht⟩
      | some num =>
          exact ⟨v, List.mem_cons_self .., K8s.stripSuffix_eq_some_iff.mp hstrip⟩

/-! ## The product -/

/-- A literal is read in one way. -/
theorem Written.eq_unit (hunits : Told (units ++ [("", 1)])) (h : Written units s n mult) :
    mult = (unit s.trim units).2 ∧ Numeral (unit s.trim units).1.trim n ∧ 0 < n := by
  obtain ⟨num, u, hu, ht, hn, hpos⟩ := h
  rw [unit_eq hunits hu ht hn]
  exact ⟨rfl, hn, hpos⟩

theorem Written.unique (hunits : Told (units ++ [("", 1)])) (h : Written units s n mult)
    (h' : Written units s m mult') : n = m ∧ mult = mult' := by
  obtain ⟨hmult, hn, -⟩ := h.eq_unit hunits
  obtain ⟨hmult', hm, -⟩ := h'.eq_unit hunits
  exact ⟨hn.unique hm, hmult.trans hmult'.symm⟩

theorem written_unit (hn : Numeral (unit s.trim units).1.trim n) (hpos : 0 < n) :
    Written units s n (unit s.trim units).2 := by
  obtain ⟨u, hu, ht⟩ := unit_mem s.trim units
  exact ⟨_, u, hu, ht, hn, hpos⟩

/-- What becomes of the number before the unit. -/
theorem scaled_cases (b : Build) (num : Text) (mult : Nat) :
    (scaled b num mult = .refused ∧ ∀ n, Numeral num.trim n → 0 < n → 2 ^ 64 ≤ n) ∨
      ∃ n, Numeral num.trim n ∧ 0 < n ∧ n < 2 ^ 64 ∧ scaled b num mult = b.mul n mult := by
  unfold scaled
  cases hparse : parseU64 num.trim with
  | none =>
      refine .inl ⟨rfl, fun n hn _ => Nat.le_of_not_lt fun hlt => ?_⟩
      rw [parseU64_eq_some_iff.mpr ⟨hn, hlt⟩] at hparse
      cases hparse
  | some n =>
      obtain ⟨hn, hlt⟩ := parseU64_eq_some_iff.mp hparse
      by_cases hpos : 0 < n
      · exact .inr ⟨n, hn, hpos, hlt, by simp [Option.filter, hpos]⟩
      · refine .inl ⟨by simp [Option.filter, hpos], fun m hm hpos' => ?_⟩
        rw [hm.unique hn] at hpos'
        exact absurd hpos' hpos

/-- The product is exact when `u64` holds it, and in no build else. -/
theorem exact_mul_iff (hunits : Told (units ++ [("", 1)])) (h : Written units s n mult) :
    Exact units s (b.mul n mult) ↔ n * mult < 2 ^ 64 := by
  unfold Build.mul
  by_cases hlt : n * mult < 2 ^ 64
  · rw [if_pos hlt]
    exact ⟨fun _ => hlt, fun _ => ⟨n, mult, h, rfl⟩⟩
  · rw [if_neg hlt]
    refine ⟨fun hexact => ?_, fun hlt' => absurd hlt' hlt⟩
    cases b with
    | debug => exact hexact.elim
    | release =>
        obtain ⟨n', mult', h', heq⟩ := hexact
        obtain ⟨rfl, rfl⟩ := h.unique hunits h'
        rw [← heq]
        exact Nat.mod_lt _ (by decide)

theorem exact_scaled_iff (hunits : Told (units ++ [("", 1)])) (b : Build) (s : Text) :
    Exact units s (scaled b (unit s.trim units).1 (unit s.trim units).2) ↔ Fits units s := by
  rcases scaled_cases b (unit s.trim units).1 (unit s.trim units).2 with
    ⟨hrefused, hlarge⟩ | ⟨n, hn, hpos, hlt, hmul⟩
  · rw [hrefused]
    refine ⟨fun _ n mult h hlt => ?_, fun _ => True.intro⟩
    obtain ⟨-, hn, hpos⟩ := h.eq_unit hunits
    exact absurd hlt (Nat.not_lt.mpr (hlarge n hn hpos))
  · have h := written_unit hn hpos
    rw [hmul, exact_mul_iff hunits h]
    constructor
    · intro hfits n' mult' h' _
      obtain ⟨rfl, rfl⟩ := h.unique hunits h'
      exact hfits
    · exact fun hfits => hfits n _ h hlt

/-! ## The slice -/

theorem utf8Len_cons (c : Char) (t : Text) :
    Text.utf8Len (c :: t) = c.utf8Size + Text.utf8Len t := by
  simp [Text.utf8Len]

theorem sliceTo_append (t u : Text) : sliceTo (t ++ u) t.utf8Len = some t := by
  induction t with
  | nil => cases u <;> rfl
  | cons c t ih =>
      obtain ⟨k, hk⟩ : ∃ k, c.utf8Size + Text.utf8Len t = k + 1 :=
        ⟨c.utf8Size + Text.utf8Len t - 1, by have := c.utf8Size_pos; omega⟩
      rw [utf8Len_cons, List.cons_append, hk, sliceTo, ← hk, if_pos (Nat.le_add_right _ _),
        Nat.add_sub_cancel_left, ih]
      · rfl
      · omega

/-- A cut behind which one byte is left. -/
theorem parseCut_concat {c : Char} (hc : c.utf8Size = 1) (t : Text) (mult : Nat) :
    parseCut b (t ++ [c]) mult = scaled b t mult := by
  have hlen : Text.utf8Len (t ++ [c]) - 1 = t.utf8Len := by
    simp [Text.utf8Len, hc]
  rw [parseCut, hlen, sliceTo_append]

theorem stripSuffix_concat (t : Text) (c d : Char) :
    K8s.stripSuffix (t ++ [c]) [d] = if c = d then some t else none := by
  split
  · rename_i hd
    rw [K8s.stripSuffix_eq_some_iff, hd]
  · rename_i hd
    cases h : K8s.stripSuffix (t ++ [c]) [d] with
    | none => rfl
    | some a =>
        rw [K8s.stripSuffix_eq_some_iff] at h
        exact absurd (List.append_inj_right' h rfl) (by simpa using hd)

/-- `parse_duration` finds the unit by the last character, and no cut is inside of one. -/
theorem parseDuration_eq (b : Build) (s : Text) :
    parseDuration b s
      = scaled b (unit s.trim durationUnits).1 (unit s.trim durationUnits).2 := by
  unfold parseDuration
  generalize s.trim = t
  rcases List.eq_nil_or_concat t with rfl | ⟨t, c, rfl⟩
  · rfl
  rw [List.concat_eq_append, List.getLast?_append, List.getLast?_singleton, Option.some_or]
  by_cases hd : c = 'd'
  · subst hd
    simp only [unit, durationUnits, String.reduceToList, stripSuffix_concat, if_true]
    exact parseCut_concat rfl t _
  by_cases hh : c = 'h'
  · subst hh
    simp only [unit, durationUnits, String.reduceToList, stripSuffix_concat, if_true, hd, if_false]
    exact parseCut_concat rfl t _
  by_cases hm : c = 'm'
  · subst hm
    simp only [unit, durationUnits, String.reduceToList, stripSuffix_concat, if_true, hd, hh,
      if_false]
    exact parseCut_concat rfl t _
  by_cases hs : c = 's'
  · subst hs
    simp only [unit, durationUnits, String.reduceToList, stripSuffix_concat, if_true, hd, hh, hm,
      if_false]
    exact parseCut_concat rfl t _
  simp [unit, durationUnits, stripSuffix_concat, hd, hh, hm, hs]

/-! ## The law -/

theorem mul_release (n mult : Nat) : Build.release.mul n mult = .value (n * mult % 2 ^ 64) := by
  unfold Build.mul
  split
  · rename_i hlt
    rw [Nat.mod_eq_of_lt hlt]
  · rfl

theorem scaled_release (num : Text) (mult : Nat) :
    scaled .release num mult = (Config.scaled num mult).elim .refused .value := by
  rw [scaled, Config.scaled]
  cases parseU64 num.trim with
  | none => rfl
  | some n =>
      by_cases hpos : 0 < n
      · simp [Option.filter, hpos, mul_release]
      · simp [Option.filter, hpos]

/-- The configuration is read with what a release build computes. -/
theorem config_release (s : Text) :
    parseSize .release s = (Config.parseSize s).elim .refused .value ∧
      parseDuration .release s = (Config.parseDuration s).elim .refused .value := by
  refine ⟨scaled_release .., ?_⟩
  rw [parseDuration_eq, scaled_release]
  by_cases hnil : s.trim = []
  · rw [Config.parseDuration, if_pos hnil, hnil]
    rfl
  · rw [Config.parseDuration, if_neg hnil]
    rfl

/-- **A literal is exact or refused exactly when its product fits.** -/
theorem literals_exact_iff (b : Build) (s : Text) :
    (Exact sizeUnits s (parseSize b s) ↔ Fits sizeUnits s) ∧
      (Exact durationUnits s (parseDuration b s) ↔ Fits durationUnits s) := by
  refine ⟨exact_scaled_iff told_sizeUnits b s, ?_⟩
  rw [parseDuration_eq]
  exact exact_scaled_iff told_durationUnits b s

/-- `2^54` KiB are no bytes at all in a release build, and the end of a debug build. -/
theorem product_wraps :
    ¬ Exact sizeUnits "18014398509481984KiB".toList
        (parseSize .release "18014398509481984KiB".toList) ∧
      ¬ Exact sizeUnits "18014398509481984KiB".toList
        (parseSize .debug "18014398509481984KiB".toList) ∧
      parseSize .release "18014398509481984KiB".toList = .value 0 ∧
      parseSize .debug "18014398509481984KiB".toList = .panics ∧
      parseDuration .release "213503982334602d".toList = .value 61184 := by
  have hwritten : Written sizeUnits "18014398509481984KiB".toList 18014398509481984 1024 :=
    ⟨"18014398509481984".toList, "KiB", by decide, by decide,
      ⟨"18014398509481984".toList, by decide, by decide, by decide, by decide⟩, by decide⟩
  have hlarge : ¬ Fits sizeUnits "18014398509481984KiB".toList := fun h =>
    absurd (h _ _ hwritten (by decide)) (by decide)
  refine ⟨fun h => hlarge ?_, fun h => hlarge ?_, by decide, by decide, by decide⟩
  · exact (exact_scaled_iff told_sizeUnits _ _).mp h
  · exact (exact_scaled_iff told_sizeUnits _ _).mp h

end Tributary.LogFile
