import Mathlib.Data.List.DropRight
import Mathlib.Data.List.TakeWhile
import Tributary.Lib.Utf8
import Tributary.Text

/-!
# The exec collector

A command is run on an interval and its line-protocol stdout goes to the queue, each line with
the global tags. Of one run at most the first mebibyte is kept; the rest is read and dropped.
-/

namespace Tributary.Exec

open Lib

/-! ## Global tags -/

abbrev Tags := List (Text × Text)

/-- LP tag keys and values escape comma, space and equals with a backslash. -/
def escapeTag (s : Text) : Text :=
  s.flatMap fun c => if c = ',' ∨ c = ' ' ∨ c = '=' then ['\\', c] else [c]

/-- The first unescaped space. -/
def boundary : Bool → Text → Option Nat
  | _, [] => none
  | true, _ :: cs => (boundary false cs).map (· + 1)
  | false, c :: cs =>
      if c = '\\' then (boundary true cs).map (· + 1)
      else if c = ' ' then some 0
      else (boundary false cs).map (· + 1)

def tagText (tags : Tags) : Text :=
  tags.flatMap fun (k, v) => ',' :: escapeTag k ++ '=' :: escapeTag v

/-- The tags just before the boundary; a line without one as it is. -/
def injectTags (line : Text) (tags : Tags) : Text :=
  if tags = [] then line
  else
    match boundary false line with
    | none => line
    | some pos => line.take pos ++ tagText tags ++ line.drop pos

/-! ## One run -/

/-- Cap on captured stdout per run. -/
def STDOUT_CAP : Nat := 2 ^ 20

/-- A read that gave something. -/
structure Read where
  bytes : List Nat
  pos : bytes ≠ []
  fits : bytes.length ≤ 8192

def keep (buf : List Nat) (r : Read) : List Nat :=
  if buf.length < STDOUT_CAP then
    buf ++ r.bytes.take (min (STDOUT_CAP - buf.length) r.bytes.length)
  else buf

/-- What is captured of the reads before the end of the pipe. -/
def readCapped (reads : List Read) : List Nat := reads.foldl keep []

/-- How a run ends. -/
inductive Ended where
  | exited (success : Bool)
  | waitFailed
  | elapsed
deriving DecidableEq, Repr

def runOnce (reads : List Read) : Ended → Except Unit (Option Text)
  | .exited true => .ok (some (Utf8.decodeLossy (readCapped reads)))
  | .exited false => .ok none
  | .waitFailed => .error ()
  | .elapsed => .ok none

/-- The lines of a tick, each without its newline. -/
def tickLines (tags : Tags) : Except Unit (Option Text) → List Text
  | .ok (some stdout) =>
      ((Text.lines stdout).filter fun line => Text.trim line ≠ []).map (injectTags · tags)
  | .ok none => []
  | .error () => []

/-- What a tick pushes to the queue, if anything. -/
def pushed (tags : Tags) (run : Except Unit (Option Text)) : Option Text :=
  let lines := (tickLines tags run).flatMap (· ++ ['\n'])
  if lines = [] then none else some lines

/-! ## What is captured -/

/-- All that the command wrote. -/
def output (reads : List Read) : List Nat := reads.flatMap Read.bytes

variable {reads : List Read} {tags : Tags} {bs : List Nat} {t l : Text}

theorem keep_take (r : Read) :
    keep (bs.take STDOUT_CAP) r = (bs ++ r.bytes).take STDOUT_CAP := by
  rw [keep, List.length_take, List.take_append]
  by_cases h : bs.length < STDOUT_CAP
  · rw [if_pos (by omega), Nat.min_eq_right (Nat.le_of_lt h),
      List.take_eq_take_min (i := STDOUT_CAP - bs.length)]
  · rw [if_neg (by omega), Nat.sub_eq_zero_of_le (Nat.le_of_not_lt h), List.take_zero,
      List.append_nil]

/-- **The first bytes are kept**, however the reads cut the output. -/
theorem readCapped_eq (reads : List Read) : readCapped reads = (output reads).take STDOUT_CAP := by
  have hfrom : ∀ bs, reads.foldl keep (bs.take STDOUT_CAP)
      = (bs ++ output reads).take STDOUT_CAP := by
    induction reads with
    | nil => simp [output]
    | cons r reads ih =>
        intro bs
        rw [List.foldl_cons, keep_take, ih, List.append_assoc]
        rfl
  exact hfrom []

/-! ## Whole lines and the piece behind them -/

/-- What stands behind the last newline. -/
def piece (bs : List Nat) : Text := Utf8.decodeLossy (bs.rtakeWhile (· ≠ 10))

/-- The whole lines. -/
def whole (bs : List Nat) : List Nat := bs.rdropWhile (· ≠ 10)

theorem newline_not_mem_piece : '\n' ∉ piece bs := fun h => by
  have hmem := Utf8.mem_of_mem_decodeLossy (b := 10) (by decide) (by decide) h
  simpa using List.mem_rtakeWhile_imp hmem

/-- Behind whole lines the decoder starts anew. -/
theorem decodeLossy_whole (bs cs : List Nat) :
    Utf8.decodeLossy (whole bs ++ cs) = Utf8.decodeLossy (whole bs) ++ Utf8.decodeLossy cs ∧
      Text.Complete (Utf8.decodeLossy (whole bs)) := by
  by_cases hne : whole bs = []
  · rw [hne]
    exact ⟨rfl, .nil⟩
  · have hlast : (whole bs).getLast hne = 10 := not_not.mp (mt decide_eq_true
      (List.rdropWhile_last_not (fun b : Nat => decide (b ≠ 10)) bs hne))
    obtain ⟨as, has⟩ : ∃ as, whole bs = as ++ [10] :=
      ⟨(whole bs).dropLast, hlast ▸ (List.dropLast_append_getLast hne).symm⟩
    have hsplit (ds : List Nat) : Utf8.decodeLossy (as ++ 10 :: ds)
        = Utf8.decodeLossy as ++ '\n' :: Utf8.decodeLossy ds :=
      Utf8.decodeLossy_append_ascii (by decide)
    have hwhole : Utf8.decodeLossy (as ++ [10]) = Utf8.decodeLossy as ++ ['\n'] := hsplit []
    rw [has, List.append_assoc, List.singleton_append, hsplit, hwhole, List.append_assoc]
    exact ⟨rfl, .inr (by simp)⟩

/-- The lines of some bytes, and of the same with more behind them. -/
theorem lines_append (bs cs : List Nat) :
    Text.lines (Utf8.decodeLossy (bs ++ cs)) = Text.lines (Utf8.decodeLossy (whole bs))
      ++ Text.lines (Utf8.decodeLossy (bs.rtakeWhile (· ≠ 10) ++ cs)) := by
  obtain ⟨hdecode, hcomplete⟩ := decodeLossy_whole bs (bs.rtakeWhile (· ≠ 10) ++ cs)
  rw [← hcomplete.lines_append, ← hdecode, ← List.append_assoc, whole,
    List.rdropWhile_append_rtakeWhile]

theorem mem_lines_iff : l ∈ Text.lines (Utf8.decodeLossy bs) ↔
    l ∈ Text.lines (Utf8.decodeLossy (whole bs)) ∨ l = piece bs ∧ l ≠ [] := by
  have hlines := lines_append bs []
  rw [List.append_nil, List.append_nil] at hlines
  rw [hlines, List.mem_append]
  refine or_congr_right ?_
  by_cases hne : piece bs = []
  · rw [show Utf8.decodeLossy (bs.rtakeWhile (· ≠ 10)) = [] from hne, Text.lines_nil, hne]
    simp
  · rw [show Utf8.decodeLossy (bs.rtakeWhile (· ≠ 10)) = piece bs from rfl,
      Text.lines_of_notMem newline_not_mem_piece hne, List.mem_singleton]
    exact ⟨fun h => ⟨h, h ▸ hne⟩, And.left⟩

/-! ## What is shipped -/

/-- Nothing but spaces. -/
def Blank (t : Text) : Prop := Text.trim t = []

/-- A line of a tick comes from a line of what was captured. -/
theorem mem_tickLines : t ∈ tickLines tags (runOnce reads (.exited true)) ↔
    ∃ l ∈ Text.lines (Utf8.decodeLossy ((output reads).take STDOUT_CAP)),
      ¬ Blank l ∧ injectTags l tags = t := by
  simp [tickLines, runOnce, readCapped_eq, Blank, and_assoc]

/-- A line before the cut is a line of the output. -/
theorem mem_lines_output
    (h : l ∈ Text.lines (Utf8.decodeLossy (whole ((output reads).take STDOUT_CAP)))) :
    l ∈ Text.lines (Utf8.decodeLossy (output reads)) := by
  rw [← List.take_append_drop STDOUT_CAP (output reads), lines_append]
  exact List.mem_append_left _ h

/-- **A tick ships whole lines** exactly where the output fits, or the cut leaves behind the
last newline only spaces, or by chance what some whole line of the output becomes as well. -/
theorem whole_lines_iff (tags : Tags) (reads : List Read) :
    (∀ t ∈ tickLines tags (runOnce reads (.exited true)),
      ∃ l ∈ Text.lines (Utf8.decodeLossy (output reads)), t = injectTags l tags) ↔
    (output reads).length ≤ STDOUT_CAP ∨ Blank (piece ((output reads).take STDOUT_CAP)) ∨
      ∃ l ∈ Text.lines (Utf8.decodeLossy (output reads)),
        injectTags (piece ((output reads).take STDOUT_CAP)) tags = injectTags l tags := by
  constructor
  · intro h
    by_cases hblank : Blank (piece ((output reads).take STDOUT_CAP))
    · exact .inr (.inl hblank)
    · have hne : piece ((output reads).take STDOUT_CAP) ≠ [] := fun hnil =>
        hblank (by rw [hnil]; rfl)
      exact .inr (.inr (h _ (mem_tickLines.mpr
        ⟨_, mem_lines_iff.mpr (.inr ⟨rfl, hne⟩), hblank, rfl⟩)))
  · intro h t ht
    obtain ⟨l, hl, hshown, rfl⟩ := mem_tickLines.mp ht
    rcases h with hfits | hblank | ⟨l', hl', heq⟩
    · rw [List.take_of_length_le hfits] at hl
      exact ⟨l, hl, rfl⟩
    · rcases mem_lines_iff.mp hl with hl | ⟨rfl, -⟩
      · exact ⟨l, mem_lines_output hl, rfl⟩
      · exact absurd hblank hshown
    · rcases mem_lines_iff.mp hl with hl | ⟨rfl, -⟩
      · exact ⟨l, mem_lines_output hl, rfl⟩
      · exact ⟨l', hl', heq⟩

/-! ## What is queued -/

theorem newline_not_mem_escapeTag (h : '\n' ∉ t) : '\n' ∉ escapeTag t := fun hmem => by
  obtain ⟨c, hc, hin⟩ := List.mem_flatMap.mp hmem
  have hne : '\n' ≠ c := fun heq => h (heq ▸ hc)
  split at hin
  · simp only [List.mem_cons, List.not_mem_nil, or_false] at hin
    exact hin.elim (by decide) hne
  · exact hne (List.mem_singleton.mp hin)

theorem newline_not_mem_injectTags (hl : '\n' ∉ l)
    (htags : ∀ kv ∈ tags, '\n' ∉ kv.1 ∧ '\n' ∉ kv.2) : '\n' ∉ injectTags l tags := by
  have htext : '\n' ∉ tagText tags := fun hmem => by
    obtain ⟨kv, hkv, hin⟩ := List.mem_flatMap.mp hmem
    have hkey := newline_not_mem_escapeTag (htags kv hkv).1
    have hvalue := newline_not_mem_escapeTag (htags kv hkv).2
    simp only [List.cons_append, List.mem_cons, List.mem_append] at hin
    rcases hin with hin | hin | hin | hin
    · exact absurd hin (by decide)
    · exact hkey hin
    · exact absurd hin (by decide)
    · exact hvalue hin
  unfold injectTags
  split
  · exact hl
  split
  · exact hl
  · rw [List.mem_append, List.mem_append]
    exact not_or_intro (not_or_intro (fun h => hl (List.mem_of_mem_take h)) htext)
      fun h => hl (List.mem_of_mem_drop h)

/-- The lines of a tick are the lines of what is queued. -/
theorem splitInclusive_pushed {run : Except Unit (Option Text)}
    (htags : ∀ kv ∈ tags, '\n' ∉ kv.1 ∧ '\n' ∉ kv.2) (h : pushed tags run = some t) :
    Text.splitInclusive t = (tickLines tags run).map (· ++ ['\n']) := by
  have hlines : ∀ l ∈ tickLines tags run, '\n' ∉ l := by
    intro l hl
    rcases run with _ | (_ | stdout)
    · cases hl
    · cases hl
    · obtain ⟨k, hk, rfl⟩ := List.mem_map.mp hl
      exact newline_not_mem_injectTags
        (Text.newline_not_mem_of_mem_lines (List.mem_filter.mp hk).1) htags
  have hsplit : ∀ ls : List Text, (∀ l ∈ ls, '\n' ∉ l) →
      Text.splitInclusive (ls.flatMap (· ++ ['\n'])) = ls.map (· ++ ['\n']) := by
    intro ls hls
    induction ls with
    | nil => rfl
    | cons l ls ih =>
        rw [List.flatMap_cons, List.append_assoc, List.singleton_append,
          Text.splitInclusive_append_newline (hls l (List.mem_cons_self ..)),
          ih fun k hk => hls k (List.mem_cons_of_mem _ hk)]
        rfl
  simp only [pushed] at h
  split at h
  · cases h
  · rw [← Option.some.inj h]
    exact hsplit _ hlines

/-! ## A number cut short -/

theorem blank_iff : Blank t ↔ ∀ c ∈ t, Text.isWhitespace c = true := by
  rw [Blank, Text.trim, List.reverse_eq_nil_iff, List.dropWhile_eq_nil_iff]
  constructor
  · intro h
    rw [← List.dropWhile_eq_nil_iff]
    by_contra hne
    exact absurd (h _ (List.mem_reverse.mpr (List.head_mem hne)))
      (by simp [List.head_dropWhile_not])
  · intro h c hc
    exact h c ((List.dropWhile_suffix _).subset (List.mem_reverse.mp hc))

/-- A read of ones. -/
def ones : Read :=
  ⟨List.replicate 8192 49, by rw [List.replicate_succ]; exact List.cons_ne_nil _ _,
    Nat.le_of_eq List.length_replicate⟩

/-- `cpu usage=`. -/
def usage : List Nat := [99, 112, 117, 32, 117, 115, 97, 103, 101, 61]

/-- A mebibyte of ones behind it, on one line. -/
def longNumber : List Read :=
  ⟨usage, by decide, by decide⟩ :: List.replicate 128 ones ++ [⟨[10], by decide, by decide⟩]

/-- The bytes of a line with so many ones. -/
def numbered (n : Nat) : List Nat := usage ++ List.replicate n 49

theorem output_longNumber : output longNumber = numbered (2 ^ 20) ++ [10] := by
  rw [output, longNumber, List.cons_append, List.flatMap_cons, List.flatMap_append,
    List.flatMap_replicate, ones, List.flatten_replicate_replicate, numbered, List.append_assoc]
  rfl

theorem mem_numbered {n b : Nat} (h : b ∈ numbered n) : b < 0x80 ∧ b ≠ 10 ∧ b ≠ 13 := by
  rcases List.mem_append.mp h with h | h
  · have hname : ∀ b ∈ usage, b < 0x80 ∧ b ≠ 10 ∧ b ≠ 13 := by decide
    exact hname b h
  · rw [(List.mem_replicate.mp h).2]
    decide

theorem piece_numbered (n : Nat) : piece (numbered n) = (numbered n).map Char.ofNat := by
  rw [piece, List.rtakeWhile_eq_self_iff.mpr fun b hb => decide_eq_true (mem_numbered hb).2.1,
    Utf8.decodeLossy_ascii fun b hb => (mem_numbered hb).1]

/-- With a tag as well a line with fewer ones is another. -/
theorem injectTags_numbered (n : Nat) :
    (injectTags (piece (numbered n)) [(['h'], ['a'])]).length = n + 14 := by
  rw [piece_numbered]
  simp [numbered, usage, injectTags, boundary, tagText, escapeTag]

theorem lines_longNumber :
    Text.lines (Utf8.decodeLossy (output longNumber)) = [piece (numbered (2 ^ 20))] := by
  have hdecode : Utf8.decodeLossy (output longNumber)
      = piece (numbered (2 ^ 20)) ++ '\n' :: [] := by
    rw [output_longNumber, Utf8.decodeLossy_append_ascii (by decide), piece_numbered,
      Utf8.decodeLossy_ascii fun b hb => (mem_numbered hb).1]
    rfl
  have hlast : (piece (numbered (2 ^ 20))).getLast? ≠ some '\r' := by
    intro h
    have hmem := Utf8.mem_of_mem_decodeLossy (b := 13) (by decide) (by decide)
      (List.mem_of_getLast? h)
    rw [List.rtakeWhile_eq_self_iff.mpr fun b hb => decide_eq_true (mem_numbered hb).2.1] at hmem
    exact (mem_numbered hmem).2.2 rfl
  rw [hdecode, Text.lines_append_newline newline_not_mem_piece, Text.stripEol_concat hlast,
    Text.lines_nil]

theorem take_numbered {k n : Nat} (h : k ≤ n) (cs : List Nat) :
    (numbered n ++ cs).take (10 + k) = numbered k := by
  have hname : 10 + k = usage.length + k := rfl
  rw [numbered, List.append_assoc, hname, List.take_length_add_append,
    List.take_append_of_le_length (by simpa using h), List.take_replicate, Nat.min_eq_left h]
  rfl

theorem take_longNumber : (output longNumber).take STDOUT_CAP = numbered (2 ^ 20 - 10) := by
  rw [output_longNumber, ← take_numbered (k := 2 ^ 20 - 10) (Nat.sub_le ..)]
  rfl

/-- The ones that fit are shipped for the number. -/
theorem number_cut : ¬ (∀ t ∈ tickLines [(['h'], ['a'])] (runOnce longNumber (.exited true)),
    ∃ l ∈ Text.lines (Utf8.decodeLossy (output longNumber)),
      t = injectTags l [(['h'], ['a'])]) := by
  intro h
  have hne : piece (numbered (2 ^ 20 - 10)) ≠ [] := by
    rw [piece_numbered, numbered]
    exact List.cons_ne_nil _ _
  have hshown : ¬ Blank (piece (numbered (2 ^ 20 - 10))) := by
    rw [blank_iff, piece_numbered, numbered]
    intro hblank
    exact absurd (hblank 'c' (List.mem_cons_self ..)) (by decide)
  obtain ⟨l, hl, heq⟩ := h _ (mem_tickLines.mpr
    ⟨_, mem_lines_iff.mpr (.inr ⟨rfl, take_longNumber ▸ hne⟩), take_longNumber ▸ hshown, rfl⟩)
  rw [lines_longNumber, List.mem_singleton] at hl
  have hlength := congrArg List.length heq
  rw [take_longNumber, hl, injectTags_numbered, injectTags_numbered] at hlength
  omega

end Tributary.Exec
