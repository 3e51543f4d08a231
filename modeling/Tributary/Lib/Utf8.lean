import Mathlib.Algebra.Ring.Nat
import Mathlib.Data.List.Basic

/-!
# UTF-8

Texts as bytes and back. The decoder goes byte by byte; where the bytes so far cannot be
continued it puts a replacement character for them and starts anew with the byte that does not
fit.
-/

namespace Tributary.Lib.Utf8

/-! ## Writing -/

def encodeChar (c : Char) : List Nat :=
  let n := c.toNat
  if n < 0x80 then [n]
  else if n < 0x800 then [0xC0 + n / 64, 0x80 + n % 64]
  else if n < 0x10000 then [0xE0 + n / 4096, 0x80 + n / 64 % 64, 0x80 + n % 64]
  else [0xF0 + n / 262144, 0x80 + n / 4096 % 64, 0x80 + n / 64 % 64, 0x80 + n % 64]

def encode (t : List Char) : List Nat := t.flatMap encodeChar

/-! ## Reading -/

/-- A character that has begun. -/
structure Begun where
  /-- the bits so far -/
  bits : Nat
  /-- the bytes to come after the next -/
  more : Nat
  /-- what the next byte may be -/
  low : Nat
  high : Nat
  /-- it is no character by itself -/
  cont : 0x80 ≤ low

inductive Lead where
  | ascii (c : Char)
  | begun (p : Begun)
  | invalid

/-- The first byte of a character. -/
def lead (b : Nat) : Lead :=
  if b < 0x80 then .ascii (Char.ofNat b)
  else if 0xC2 ≤ b ∧ b ≤ 0xDF then .begun ⟨b - 0xC0, 0, 0x80, 0xBF, by decide⟩
  else if b = 0xE0 then .begun ⟨0, 1, 0xA0, 0xBF, by decide⟩
  else if b = 0xED then .begun ⟨0xD, 1, 0x80, 0x9F, by decide⟩
  else if 0xE1 ≤ b ∧ b ≤ 0xEF then .begun ⟨b - 0xE0, 1, 0x80, 0xBF, by decide⟩
  else if b = 0xF0 then .begun ⟨0, 2, 0x90, 0xBF, by decide⟩
  else if 0xF1 ≤ b ∧ b ≤ 0xF3 then .begun ⟨b - 0xF0, 2, 0x80, 0xBF, by decide⟩
  else if b = 0xF4 then .begun ⟨4, 2, 0x80, 0x8F, by decide⟩
  else .invalid

/-- U+FFFD. -/
def replacement : Char := Char.ofNat 0xFFFD

/-- A byte between characters: what it completes, and what it begins. -/
def first (b : Nat) : List Char × Option Begun :=
  match lead b with
  | .ascii c => ([c], none)
  | .begun p => ([], some p)
  | .invalid => ([replacement], none)

def step : Option Begun → Nat → List Char × Option Begun
  | none, b => first b
  | some p, b =>
      if p.low ≤ b ∧ b ≤ p.high then
        let bits := p.bits * 64 + (b - 0x80)
        match p.more with
        | 0 => ([Char.ofNat bits], none)
        | more + 1 => ([], some ⟨bits, more, 0x80, 0xBF, by decide⟩)
      else (replacement :: (first b).1, (first b).2)

/-- What is left at the end. -/
def flush : Option Begun → List Char
  | none => []
  | some _ => [replacement]

def decodeFrom (s : Option Begun) : List Nat → List Char
  | [] => flush s
  | b :: bs => (step s b).1 ++ decodeFrom (step s b).2 bs

/-- `String::from_utf8_lossy`. -/
def decodeLossy (bs : List Nat) : List Char := decodeFrom none bs

/-! ## Lines -/

variable {s : Option Begun} {b : Nat} {bs cs : List Nat} {c : Char}

/-- A byte that continues a character, and its last. -/
theorem step_more {p : Begun} {k : Nat} (hmore : p.more = k + 1) (hlow : p.low ≤ b)
    (hhigh : b ≤ p.high) :
    step (some p) b = ([], some ⟨p.bits * 64 + (b - 0x80), k, 0x80, 0xBF, by decide⟩) := by
  rw [step, if_pos ⟨hlow, hhigh⟩]
  simp only [hmore]

theorem step_last {p : Begun} (hmore : p.more = 0) (hlow : p.low ≤ b) (hhigh : b ≤ p.high) :
    step (some p) b = ([Char.ofNat (p.bits * 64 + (b - 0x80))], none) := by
  rw [step, if_pos ⟨hlow, hhigh⟩]
  simp only [hmore]

/-- An ASCII byte is a character by itself, whatever has begun. -/
theorem step_ascii (s : Option Begun) (hb : b < 0x80) :
    step s b = (flush s ++ [Char.ofNat b], none) := by
  have hfirst : first b = ([Char.ofNat b], none) := by
    rw [first, lead, if_pos hb]
  cases s with
  | none => exact hfirst
  | some p =>
      have hlow : ¬ (p.low ≤ b ∧ b ≤ p.high) := fun h => by
        have := p.cont
        omega
      rw [step, if_neg hlow, hfirst]
      rfl

/-- **Decoding goes piece by piece** between ASCII bytes. -/
theorem decodeFrom_append_ascii (s : Option Begun) (hb : b < 0x80) :
    decodeFrom s (bs ++ b :: cs) = decodeFrom s bs ++ Char.ofNat b :: decodeLossy cs := by
  induction bs generalizing s with
  | nil =>
      simp only [List.nil_append, decodeFrom, step_ascii s hb, List.append_assoc]
      rfl
  | cons a bs ih =>
      rw [List.cons_append, decodeFrom, decodeFrom, ih, List.append_assoc]

theorem decodeLossy_append_ascii (hb : b < 0x80) :
    decodeLossy (bs ++ b :: cs) = decodeLossy bs ++ Char.ofNat b :: decodeLossy cs :=
  decodeFrom_append_ascii none hb

theorem decodeLossy_ascii (h : ∀ b ∈ bs, b < 0x80) : decodeLossy bs = bs.map Char.ofNat := by
  induction bs with
  | nil => rfl
  | cons b bs ih =>
      rw [decodeLossy, decodeFrom, step_ascii none (h b (List.mem_cons_self ..))]
      exact congrArg (Char.ofNat b :: ·) (ih fun d hd => h d (List.mem_cons_of_mem _ hd))

/-- What has begun becomes no ASCII character. -/
def Begun.Long (p : Begun) : Prop := 0x80 ≤ (p.bits * 64 + (p.low - 0x80)) * 64 ^ p.more

theorem long_of_lead {p : Begun} (h : lead b = .begun p) : p.Long := by
  unfold lead at h
  repeat' split at h
  all_goals
    simp only [Lead.begun.injEq, reduceCtorEq] at h
  all_goals
    rw [← h]
    simp only [Begun.Long]
    omega

theorem eq_of_lead_ascii (h : lead b = .ascii c) : c = Char.ofNat b := by
  unfold lead at h
  split at h
  · exact (Lead.ascii.inj h).symm
  · repeat' split at h
    all_goals cases h

theorem toNat_ofNat (n : Nat) : (Char.ofNat n).toNat = if n.isValidChar then n else 0 := by
  by_cases h : n.isValidChar
  · rw [if_pos h, Char.ofNat, dif_pos h]
    rfl
  · rw [if_neg h, Char.ofNat, dif_neg h]
    rfl

theorem eq_of_ofNat_eq {m : Nat} (h0 : b ≠ 0) (hb : b < 0x80) (h : Char.ofNat m = Char.ofNat b) :
    m = b := by
  have hvalid : b.isValidChar := .inl (by omega)
  have htoNat := congrArg Char.toNat h
  rw [toNat_ofNat, toNat_ofNat, if_pos hvalid] at htoNat
  split at htoNat
  · exact htoNat
  · exact absurd htoNat.symm h0

theorem ne_replacement (h0 : b ≠ 0) (hb : b < 0x80) : Char.ofNat b ≠ replacement := fun h => by
  have := eq_of_ofNat_eq (m := 0xFFFD) h0 hb h.symm
  omega

theorem first_cases (a : Nat) (h0 : b ≠ 0) (hb : b < 0x80) :
    (∀ q ∈ (first a).2, q.Long) ∧ (Char.ofNat b ∈ (first a).1 → a = b) := by
  rw [first]
  cases hlead : lead a with
  | ascii c =>
      refine ⟨fun q hq => (Option.not_mem_none q hq).elim, fun h => ?_⟩
      have hc := List.mem_singleton.mp h
      rw [eq_of_lead_ascii hlead] at hc
      exact eq_of_ofNat_eq h0 hb hc.symm
  | begun p =>
      refine ⟨fun q hq => ?_, fun h => absurd h List.not_mem_nil⟩
      rw [← Option.mem_some_iff.mp hq]
      exact long_of_lead hlead
  | invalid =>
      refine ⟨fun q hq => (Option.not_mem_none q hq).elim, fun h => ?_⟩
      exact absurd (List.mem_singleton.mp h) (ne_replacement h0 hb)

/-- One byte puts out the ASCII character that it is, and no other. -/
theorem step_cases {p : Option Begun} (hp : ∀ q ∈ p, q.Long) (a : Nat) (h0 : b ≠ 0)
    (hb : b < 0x80) :
    (∀ q ∈ (step p a).2, q.Long) ∧ (Char.ofNat b ∈ (step p a).1 → a = b) := by
  cases p with
  | none => exact first_cases a h0 hb
  | some p =>
      have hlong : p.Long := hp p rfl
      by_cases hnext : p.low ≤ a ∧ a ≤ p.high
      · have hbits : p.bits * 64 + (p.low - 0x80) ≤ p.bits * 64 + (a - 0x80) := by omega
        have hgrown := Nat.le_trans hlong (Nat.mul_le_mul_right (64 ^ p.more) hbits)
        cases hmore : p.more with
        | zero =>
            rw [step_last hmore hnext.1 hnext.2]
            rw [hmore, Nat.pow_zero, Nat.mul_one] at hgrown
            refine ⟨fun q hq => (Option.not_mem_none q hq).elim, fun h => ?_⟩
            have := eq_of_ofNat_eq h0 hb (List.mem_singleton.mp h).symm
            omega
        | succ more =>
            rw [step_more hmore hnext.1 hnext.2]
            refine ⟨?_, fun h => absurd h List.not_mem_nil⟩
            intro q hq
            rw [← Option.mem_some_iff.mp hq]
            rw [hmore, Nat.pow_succ'] at hgrown
            simpa [Begun.Long, Nat.mul_assoc] using hgrown
      · obtain ⟨hbegun, hout⟩ := first_cases a h0 hb
        rw [step, if_neg hnext]
        refine ⟨hbegun, fun h => ?_⟩
        rcases List.mem_cons.mp h with h | h
        · exact absurd h (ne_replacement h0 hb)
        · exact hout h

theorem mem_of_mem_decodeFrom {p : Option Begun} (hp : ∀ q ∈ p, q.Long) (h0 : b ≠ 0)
    (hb : b < 0x80) (h : Char.ofNat b ∈ decodeFrom p bs) : b ∈ bs := by
  induction bs generalizing p with
  | nil =>
      cases p with
      | none => exact absurd h List.not_mem_nil
      | some p =>
          exact absurd (List.mem_singleton.mp h) (ne_replacement h0 hb)
  | cons a bs ih =>
      obtain ⟨hbegun, hout⟩ := step_cases hp a h0 hb
      rcases List.mem_append.mp h with h | h
      · exact hout h ▸ List.mem_cons_self ..
      · exact List.mem_cons_of_mem _ (ih hbegun h)

/-- **An ASCII character comes from its own byte.** -/
theorem mem_of_mem_decodeLossy (h0 : b ≠ 0) (hb : b < 0x80) (h : Char.ofNat b ∈ decodeLossy bs) :
    b ∈ bs :=
  mem_of_mem_decodeFrom (fun q hq => (Option.not_mem_none q hq).elim) h0 hb h

/-! ## Reading what was written -/

theorem toNat_range (c : Char) : c.toNat < 0xD800 ∨ 0xDFFF < c.toNat ∧ c.toNat < 0x110000 := by
  have h := c.valid
  simp only [UInt32.isValidChar, Nat.isValidChar] at h
  exact h

/-- The first byte of a character lets its second follow. -/
theorem lead_two {n : Nat} (h : 0x80 ≤ n) (h' : n < 0x800) :
    ∃ p, lead (0xC0 + n / 64) = .begun p ∧ p.bits = n / 64 ∧ p.more = 0 ∧
      p.low = 0x80 ∧ p.high = 0xBF := by
  unfold lead
  rw [if_neg (by omega), if_pos (by omega)]
  exact ⟨_, rfl, Nat.add_sub_cancel_left .., rfl, rfl, rfl⟩

theorem lead_three {n : Nat} (h : 0x800 ≤ n) (h' : n < 0x10000)
    (hvalid : n < 0xD800 ∨ 0xDFFF < n) :
    ∃ p, lead (0xE0 + n / 4096) = .begun p ∧ p.bits = n / 4096 ∧ p.more = 1 ∧
      p.low ≤ 0x80 + n / 64 % 64 ∧ 0x80 + n / 64 % 64 ≤ p.high := by
  unfold lead
  rw [if_neg (by omega), if_neg (by omega)]
  by_cases hfirst : 0xE0 + n / 4096 = 0xE0
  · rw [if_pos hfirst]
    exact ⟨_, rfl, by simp only; omega, rfl, by simp only; omega, by simp only; omega⟩
  rw [if_neg hfirst]
  by_cases hsurrogate : 0xE0 + n / 4096 = 0xED
  · rw [if_pos hsurrogate]
    exact ⟨_, rfl, by simp only; omega, rfl, by simp only; omega, by simp only; omega⟩
  · rw [if_neg hsurrogate, if_pos (by omega)]
    exact ⟨_, rfl, Nat.add_sub_cancel_left .., rfl, by simp only; omega, by simp only; omega⟩

theorem lead_four {n : Nat} (h : 0x10000 ≤ n) (h' : n < 0x110000) :
    ∃ p, lead (0xF0 + n / 262144) = .begun p ∧ p.bits = n / 262144 ∧ p.more = 2 ∧
      p.low ≤ 0x80 + n / 4096 % 64 ∧ 0x80 + n / 4096 % 64 ≤ p.high := by
  unfold lead
  rw [if_neg (by omega), if_neg (by omega), if_neg (by omega), if_neg (by omega),
    if_neg (by omega)]
  by_cases hfirst : 0xF0 + n / 262144 = 0xF0
  · rw [if_pos hfirst]
    exact ⟨_, rfl, by simp only; omega, rfl, by simp only; omega, by simp only; omega⟩
  rw [if_neg hfirst]
  by_cases hmiddle : 0xF1 ≤ 0xF0 + n / 262144 ∧ 0xF0 + n / 262144 ≤ 0xF3
  · rw [if_pos hmiddle]
    exact ⟨_, rfl, Nat.add_sub_cancel_left .., rfl, by simp only; omega, by simp only; omega⟩
  · rw [if_neg hmiddle, if_pos (by omega)]
    exact ⟨_, rfl, by simp only; omega, rfl, by simp only; omega, by simp only; omega⟩

theorem step_begun {p : Begun} (h : lead b = .begun p) : step none b = ([], some p) := by
  rw [step, first, h]

/-- **A character reads back.** -/
theorem decodeFrom_encodeChar (c : Char) (bs : List Nat) :
    decodeFrom none (encodeChar c ++ bs) = c :: decodeFrom none bs := by
  have hrange := toNat_range c
  have hback : ∀ m, m = c.toNat → Char.ofNat m = c := by
    rintro m rfl
    exact Char.ofNat_toNat c
  unfold encodeChar
  by_cases h1 : c.toNat < 0x80
  · simp only [if_pos h1, List.cons_append, List.nil_append, decodeFrom, step_ascii none h1, flush]
    rw [hback _ rfl]
  by_cases h2 : c.toNat < 0x800
  · obtain ⟨p, hlead, hbits, hmore, hlow, hhigh⟩ := lead_two (Nat.le_of_not_lt h1) h2
    simp only [if_neg h1, if_pos h2, List.cons_append, List.nil_append, decodeFrom,
      step_begun hlead, step_last (b := 0x80 + c.toNat % 64) hmore (by omega) (by omega)]
    rw [hback _ (by omega)]
  by_cases h3 : c.toNat < 0x10000
  · obtain ⟨p, hlead, hbits, hmore, hlow, hhigh⟩ :=
      lead_three (Nat.le_of_not_lt h2) h3 (hrange.imp id And.left)
    have hlast := step_last (b := 0x80 + c.toNat % 64)
      (p := ⟨p.bits * 64 + (0x80 + c.toNat / 64 % 64 - 0x80), 0, 0x80, 0xBF, by decide⟩) rfl
      (by simp only; omega) (by simp only; omega)
    simp only [if_neg h1, if_neg h2, if_pos h3, List.cons_append, List.nil_append, decodeFrom,
      step_begun hlead, step_more hmore hlow hhigh, hlast]
    rw [hback _ (by omega)]
  · obtain ⟨p, hlead, hbits, hmore, hlow, hhigh⟩ :=
      lead_four (Nat.le_of_not_lt h3) (by omega)
    have hthird := step_more (b := 0x80 + c.toNat / 64 % 64) (k := 0)
      (p := ⟨p.bits * 64 + (0x80 + c.toNat / 4096 % 64 - 0x80), 1, 0x80, 0xBF, by decide⟩) rfl
      (by simp only; omega) (by simp only; omega)
    have hlast := step_last (b := 0x80 + c.toNat % 64)
      (p := ⟨(p.bits * 64 + (0x80 + c.toNat / 4096 % 64 - 0x80)) * 64
        + (0x80 + c.toNat / 64 % 64 - 0x80), 0, 0x80, 0xBF, by decide⟩) rfl
      (by simp only; omega) (by simp only; omega)
    simp only [if_neg h1, if_neg h2, if_neg h3, List.cons_append, List.nil_append, decodeFrom,
      step_begun hlead, step_more hmore hlow hhigh, hthird, hlast]
    rw [hback _ (by omega)]

theorem decodeLossy_encode (t : List Char) : decodeLossy (encode t) = t := by
  induction t with
  | nil => rfl
  | cons c t ih =>
      rw [encode, List.flatMap_cons, decodeLossy, decodeFrom_encodeChar]
      exact congrArg (c :: ·) ih

/-- An ASCII byte is written for its own character only. -/
theorem toNat_of_mem_encodeChar (hmem : b ∈ encodeChar c) (hb : b < 0x80) : c.toNat = b := by
  simp only [encodeChar] at hmem
  by_cases h1 : c.toNat < 0x80
  · rw [if_pos h1, List.mem_singleton] at hmem
    exact hmem.symm
  · rw [if_neg h1] at hmem
    split at hmem
    · simp only [List.mem_cons, List.not_mem_nil, or_false] at hmem
      omega
    · split at hmem <;> simp only [List.mem_cons, List.not_mem_nil, or_false] at hmem <;> omega

end Tributary.Lib.Utf8
