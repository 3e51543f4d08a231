import Tributary.Config

/-!
# Glob sources

A path with a wildcard in its last segment: the files of one directory whose name
matches, each tailed on its own. A file's state is kept under a key made of the
source's name and the file's.
-/

namespace Tributary.Glob

open Config Map

/-- A file name as the directory holds it. -/
abbrev FileName := List UInt8

/-! ## Names as text -/

/-- `str::as_bytes`. -/
def asBytes (t : Text) : List UInt8 := t.flatMap String.utf8EncodeChar

/-- The ranges the bytes after a first byte must be in; `none` for a byte that
starts no character of more than one byte. -/
def continuation (b : UInt8) : Option (List (UInt8 × UInt8)) :=
  let any : UInt8 × UInt8 := (0x80, 0xBF)
  if 0xC2 ≤ b ∧ b ≤ 0xDF then some [any]
  else if b = 0xE0 then some [(0xA0, 0xBF), any]
  else if b = 0xED then some [(0x80, 0x9F), any]
  else if 0xE1 ≤ b ∧ b ≤ 0xEF then some [any, any]
  else if b = 0xF0 then some [(0x90, 0xBF), any, any]
  else if 0xF1 ≤ b ∧ b ≤ 0xF3 then some [any, any, any]
  else if b = 0xF4 then some [(0x80, 0x8F), any, any]
  else none

/-- The character of a sequence that has passed the ranges. -/
def decodeSeq : List UInt8 → Char
  | [b] => Char.ofNat b.toNat
  | [b, c] => Char.ofNat (b.toNat % 32 * 64 + c.toNat % 64)
  | [b, c, d] => Char.ofNat (b.toNat % 16 * 4096 + c.toNat % 64 * 64 + d.toNat % 64)
  | [b, c, d, e] =>
      Char.ofNat (b.toNat % 8 * 262144 + c.toNat % 64 * 4096 + d.toNat % 64 * 64 + e.toNat % 64)
  | _ => '\uFFFD'

/-- `to_string_lossy`: what is cut short or starts no character becomes one
replacement character. `seq` is the character being read, `due` the ranges of the
bytes it still needs. -/
def lossyFrom (seq : List UInt8) (due : List (UInt8 × UInt8)) : List UInt8 → Text
  | [] => if seq = [] then [] else ['\uFFFD']
  | b :: bs =>
      let start : Text :=
        if b < 0x80 then decodeSeq [b] :: lossyFrom [] [] bs
        else
          match continuation b with
          | some ranges => lossyFrom [b] ranges bs
          | none => '\uFFFD' :: lossyFrom [] [] bs
      match due with
      | [] => start
      | (lo, hi) :: due =>
          if lo ≤ b ∧ b ≤ hi then
            if due = [] then decodeSeq (seq ++ [b]) :: lossyFrom [] [] bs
            else lossyFrom (seq ++ [b]) due bs
          else '\uFFFD' :: start

def toStringLossy (name : FileName) : Text := lossyFrom [] [] name

/-! ## Matching -/

/-- `is_glob`: the last segment has a wildcard. -/
def isGlob (path : Text) : Bool :=
  let last := K8s.afterLast (fun c => c = '/' || c = '\\') path
  last.contains '*' || last.contains '?'

/-- The pattern's directory and its last segment. -/
def split (pattern : Text) : Text × Text :=
  let last := K8s.afterLast (fun c => c = '/' || c = '\\') pattern
  if last.length < pattern.length then (pattern.take (pattern.length - last.length - 1), last)
  else (['.'], pattern)

/-- The loop of `wildcard`, at `p` in the pattern and `c` in the name; `back` is
the last `*` with the place its run ends. -/
def wildcardLoop (pat s : List UInt8) :
    (fuel : Nat) → (p c : Nat) → (back : Option (Nat × Nat)) → Option Bool
  | 0, _, _, _ => none
  | fuel + 1, p, c, back =>
      if c < s.length then
        if p < pat.length ∧ (pat[p]? = some 63 ∨ pat[p]? = s[c]?) then
          wildcardLoop pat s fuel (p + 1) (c + 1) back
        else if pat[p]? = some 42 then wildcardLoop pat s fuel (p + 1) c (some (p, c))
        else
          match back with
          | some (star, mark) =>
              wildcardLoop pat s fuel (star + 1) (mark + 1) (some (star, mark + 1))
          | none => some false
      else some ((pat.drop p).dropWhile (· = 42) = [])

/-- Enough for every run of the loop. -/
def wildcardFuel (pat s : List UInt8) : Nat :=
  (s.length + 1) * ((s.length + 1) * (pat.length + 1)) + 1

/-- What is left to try, weighed so that every turn of the loop lowers it. -/
def wildcardLeft (pat s : List UInt8) (p c mark : Nat) : Nat :=
  (s.length - mark) * ((s.length + 1) * (pat.length + 1))
    + (s.length - c) * (pat.length + 1) + (pat.length - p)

section

variable {pat s : List UInt8} {p c mark : Nat}

theorem wildcardLeft_next (hp : p < pat.length) (hc : c < s.length) :
    wildcardLeft pat s (p + 1) (c + 1) mark < wildcardLeft pat s p c mark := by
  have hle : (s.length - (c + 1)) * (pat.length + 1) ≤ (s.length - c) * (pat.length + 1) :=
    Nat.mul_le_mul_right _ (by omega)
  unfold wildcardLeft
  omega

theorem wildcardLeft_star (hp : p < pat.length) (hmark : mark ≤ c) :
    wildcardLeft pat s (p + 1) c c < wildcardLeft pat s p c mark := by
  have hle := Nat.mul_le_mul_right ((s.length + 1) * (pat.length + 1))
    (show s.length - c ≤ s.length - mark by omega)
  unfold wildcardLeft
  omega

/-- Going back to the last `*` costs the most: its run has grown by one. -/
theorem wildcardLeft_back (star : Nat) (hmark : mark < s.length) :
    wildcardLeft pat s (star + 1) (mark + 1) (mark + 1) < wildcardLeft pat s p c mark := by
  obtain ⟨left, hleft⟩ : ∃ left, s.length - mark = left + 1 := ⟨s.length - mark - 1, by omega⟩
  have hsub : s.length - (mark + 1) = left := by omega
  have hle : left * (pat.length + 1) ≤ s.length * (pat.length + 1) :=
    Nat.mul_le_mul_right _ (by omega)
  unfold wildcardLeft
  rw [hleft, hsub, Nat.succ_mul left, Nat.succ_mul s.length]
  omega

/-- **The loop ends**: with more fuel than is left to try it has an answer. -/
theorem wildcardLoop_isSome {fuel : Nat} {back : Option (Nat × Nat)} (hp : p ≤ pat.length)
    (hback : ∀ b ∈ back, b.1 < pat.length ∧ b.2 ≤ c)
    (hfuel : wildcardLeft pat s p c ((back.map (·.2)).getD 0) < fuel) :
    (wildcardLoop pat s fuel p c back).isSome := by
  induction fuel generalizing p c back with
  | zero => exact absurd hfuel (Nat.not_lt_zero _)
  | succ fuel ih =>
      have hmark : (back.map (·.2)).getD 0 ≤ c := by
        cases back with
        | none => exact Nat.zero_le c
        | some b => exact (hback b rfl).2
      unfold wildcardLoop
      by_cases hc : c < s.length
      · rw [if_pos hc]
        split
        · rename_i hmatch
          refine ih hmatch.1 (fun b hb => ⟨(hback b hb).1, Nat.le_succ_of_le (hback b hb).2⟩) ?_
          exact Nat.lt_of_lt_of_le (wildcardLeft_next hmatch.1 hc) (Nat.le_of_lt_succ hfuel)
        · split
          · rename_i hstar
            have hp : p < pat.length := (List.getElem?_eq_some_iff.mp hstar).1
            refine ih hp ?_ ?_
            · rintro b ⟨⟩
              exact ⟨hp, Nat.le_refl c⟩
            · exact Nat.lt_of_lt_of_le (wildcardLeft_star hp hmark) (Nat.le_of_lt_succ hfuel)
          · split
            · rename_i star mark
              obtain ⟨hstar, hmark⟩ := hback (star, mark) rfl
              refine ih hstar ?_ ?_
              · rintro b ⟨⟩
                exact ⟨hstar, Nat.le_refl _⟩
              · exact Nat.lt_of_lt_of_le
                  (wildcardLeft_back star (Nat.lt_of_le_of_lt hmark hc)) (Nat.le_of_lt_succ hfuel)
            · rfl
      · rw [if_neg hc]
        rfl

theorem wildcardLoop_fuel : (wildcardLoop pat s (wildcardFuel pat s) 0 0 none).isSome := by
  refine wildcardLoop_isSome (Nat.zero_le _) (fun b hb => nomatch hb) ?_
  simp only [wildcardLeft, wildcardFuel, Option.map_none, Option.getD_none, Nat.sub_zero]
  rw [Nat.succ_mul s.length ((s.length + 1) * (pat.length + 1)), Nat.succ_mul s.length]
  omega

end

/-- `wildcard`: `*` is any run of bytes, `?` one byte. -/
def wildcard (pat s : List UInt8) : Bool :=
  (wildcardLoop pat s (wildcardFuel pat s) 0 0 none).getD false

/-- What `read_dir` gives: no name twice. -/
structure Listing where
  names : List FileName
  distinct : names.Nodup

/-- A directory as the scan of a source finds it; `none` cannot be read. -/
abbrev ReadDir := (dir : Text) → Option Listing

structure Path where
  dir : Text
  file : FileName
deriving DecidableEq, Repr

/-- `matches`: the files a pattern matches, sorted. -/
def globMatches (readDir : ReadDir) (pattern : Text) : List Path :=
  let (dir, namePat) := split pattern
  match readDir dir with
  | none => []
  | some listing =>
      ((listing.names.filter fun name => wildcard (asBytes namePat) (asBytes (toStringLossy name)))
        |>.insertionSort (· ≤ ·)).map (Path.mk dir)

/-! ## State keys -/

def logSuffix : Text := ".log".toList

/-- A file name without one `.log`. -/
def stem (name : FileName) : Text :=
  let file := toStringLossy name
  (K8s.stripSuffix file logSuffix).getD file

/-- `stream_id`. -/
def streamId (sourceName : Text) (path : Path) : Text := sourceName ++ '.' :: stem path.file

/-- The sources that are tailed: a pull source, which is the only one, is not. -/
def tailed (sources : List Entry) : List Entry :=
  match sources.head? with
  | some e => if e.source.parser = .journald ∨ e.source.parser = .winlog then [] else sources
  | none => []

end Tributary.Glob
