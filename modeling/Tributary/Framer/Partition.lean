import Tributary.Framer

/-!
# What the joiner makes of the lines it is given

Lines go into the joiner one by one and come out as records. However pushes, timeouts
and drains follow on each other, the lines of the records and those still buffered are
the lines pushed, and a line that starts a record starts one.
-/

namespace Tributary.Joiner

/-! ## Calls -/

inductive Call where
  | push (line : Chunk) (now : Nat)
  | expire (now : Nat)
  | drain
deriving DecidableEq, Repr

variable (libs : Libs)

def call (j : Joiner) : Call → Option Chunk × Joiner
  | .push line now => j.push libs line now
  | .expire now => j.expire now
  | .drain => j.drain

/-- The records a list of calls emits, and the joiner after it. -/
def calls (j : Joiner) : List Call → List Chunk × Joiner
  | [] => ([], j)
  | c :: cs => ((j.call libs c).1.toList ++ (calls (j.call libs c).2 cs).1,
      (calls (j.call libs c).2 cs).2)

/-- The line a call pushes. -/
def Call.pushed : Call → List Text
  | .push line _ => [line.text]
  | _ => []

/-- A record, or a buffered line, split at newlines. -/
def recordLines (c : Chunk) : List Text := c.text.splitOn '\n'

/-- Lines that make one record: only the first may start one, and there are no more than
the cap. -/
structure IsRecord (start : Option Text) (cap : Nat) (lines : List Text) : Prop where
  start : ∀ re ∈ start, ∀ l ∈ lines.tail, libs.isMatch re l = false
  length : lines.length ≤ cap

/-! ## One call -/

section

variable {libs} {j : Joiner}

/-- The buffer holds single lines, fewer than the cap and at most one of them, the
first, starting a record. -/
structure Inv (libs : Libs) (j : Joiner) : Prop where
  newlines : ∀ c ∈ j.buf, '\n' ∉ c.text
  starts : ∀ re ∈ j.start, ∀ c ∈ j.buf.tail, libs.isMatch re c.text = false
  length : j.buf.length < j.maxLines
  disabled : j.start = none → j.buf = []

theorem recordLines_of_notMem {c : Chunk} (h : '\n' ∉ c.text) : recordLines c = [c.text] := by
  have hsplit := List.splitOn_intercalate '\n' (by simpa using h) (List.cons_ne_nil c.text [])
  rwa [show ['\n'].intercalate [c.text] = c.text by simp [List.intercalate]] at hsplit

theorem flatMap_recordLines {buf : List Chunk} (h : ∀ c ∈ buf, '\n' ∉ c.text) :
    buf.flatMap recordLines = buf.map Chunk.text := by
  induction buf with
  | nil => rfl
  | cons c buf ih =>
      rw [List.flatMap_cons, List.map_cons, recordLines_of_notMem (h c (List.mem_cons_self ..)),
        ih fun d hd => h d (List.mem_cons_of_mem _ hd)]
      rfl

/-- Joined lines split again into the lines. -/
theorem recordLines_joined {buf : List Chunk} (hne : buf ≠ []) (h : ∀ c ∈ buf, '\n' ∉ c.text) :
    recordLines (joined buf) = buf.map Chunk.text :=
  List.splitOn_intercalate '\n' (by simpa using h) (by simpa using hne)

@[simp] theorem cleared_start (j : Joiner) : j.cleared.start = j.start := rfl

/-- What a call does: the lines it emits and keeps are those it found and got, and what
it emits is a record. -/
structure Called (libs : Libs) (j : Joiner) (pushed : List Text) (out : Option Chunk)
    (j' : Joiner) : Prop where
  inv : j'.Inv libs
  start : j'.start = j.start
  maxLines : j'.maxLines = j.maxLines
  lines : out.toList.flatMap recordLines ++ j'.buf.map Chunk.text = j.buf.map Chunk.text ++ pushed
  isRecord : ∀ r ∈ out, IsRecord libs j.start j.maxLines (recordLines r)

/-- A call that gives nothing and keeps what is buffered. -/
theorem Inv.called_none (h : j.Inv libs) : Called libs j [] none j where
  inv := h
  start := rfl
  maxLines := rfl
  lines := (List.append_nil _).symm
  isRecord := fun _ hr => nomatch hr

/-- A joiner with one line in the buffer, or none. -/
theorem inv_of_cleared (hbuf : ∀ c ∈ j.buf, '\n' ∉ c.text) (hone : j.buf.length ≤ 1)
    (hcap : j.buf.length < j.maxLines) (hdisabled : j.start = none → j.buf = []) :
    j.Inv libs where
  newlines := hbuf
  starts := by
    intro re _ c hc
    have htail : j.buf.tail = [] := by
      rw [List.eq_nil_iff_length_eq_zero, List.length_tail]
      omega
    rw [htail] at hc
    cases hc
  length := hcap
  disabled := hdisabled

/-- What is buffered makes a record. -/
theorem Inv.isRecord (h : j.Inv libs) : IsRecord libs j.start j.maxLines (j.buf.map Chunk.text) where
  start := by
    intro re hre l hl
    rw [← List.map_tail] at hl
    obtain ⟨c, hc, rfl⟩ := List.mem_map.mp hl
    exact h.starts re hre c hc
  length := by
    rw [List.length_map]
    exact Nat.le_of_lt h.length

/-- Taking the buffer emits it as one record. -/
theorem Inv.called_take (h : j.Inv libs) (hne : j.buf ≠ []) :
    Called libs j [] (some (joined j.buf)) j.cleared where
  inv := inv_of_cleared (fun _ hc => nomatch hc) (Nat.zero_le _)
    (Nat.lt_of_le_of_lt (Nat.zero_le _) h.length) fun _ => rfl
  start := rfl
  maxLines := rfl
  lines := by
    simp [recordLines_joined hne h.newlines, cleared]
  isRecord := by
    rintro r ⟨⟩
    rw [recordLines_joined hne h.newlines]
    exact h.isRecord

/-- A line that starts a record closes the one in the buffer; if it fills the buffer
alone, it is put back. -/
theorem Inv.called_start (h : j.Inv libs) {line : Chunk} {re : Text} {now : Nat}
    (hline : '\n' ∉ line.text) (hre : j.start = some re) (hne : j.buf ≠ [])
    (hnew : libs.isMatch re line.text = true) :
    Called libs j [line.text] (j.push libs line now).1 (j.push libs line now).2 := by
  have hcap : 1 < j.maxLines :=
    Nat.lt_of_le_of_lt (List.length_pos_of_ne_nil hne) h.length
  have htake := h.called_take hne
  have hback : (joined [line]).text = line.text := by simp [joined, List.intercalate]
  have hempty : j.buf.isEmpty = false := by simpa using hne
  rw [push]
  simp only [hre, hnew, hempty, Bool.not_false, Bool.and_true, if_true]
  split
  · -- the new line alone is at a cap: the record before it goes first
    refine ⟨inv_of_cleared ?_ (Nat.le_refl 1) hcap (by simp [hre]), rfl, rfl, ?_, htake.isRecord⟩
    · simpa [cleared, hback] using hline
    · simp [recordLines_joined hne h.newlines, hback, cleared]
  · refine ⟨inv_of_cleared ?_ (Nat.le_refl 1) hcap (by simp [hre]), rfl, rfl, ?_, htake.isRecord⟩
    · simpa [cleared] using hline
    · simp [recordLines_joined hne h.newlines, cleared]

/-- Any other line goes behind those in the buffer, and empties it at a cap. -/
theorem Inv.called_continue (h : j.Inv libs) {line : Chunk} {re : Text} {now : Nat}
    (hline : '\n' ∉ line.text) (hre : j.start = some re)
    (hnew : j.buf ≠ [] → libs.isMatch re line.text = false) :
    Called libs j [line.text] (j.push libs line now).1 (j.push libs line now).2 := by
  have hsame : (libs.isMatch re line.text && !j.buf.isEmpty) = false := by
    by_cases hne : j.buf = []
    · simp [hne]
    · simp [hnew hne]
  have hnewlines : ∀ c ∈ j.buf ++ [line], '\n' ∉ c.text := by
    intro c hc
    rcases List.mem_append.mp hc with hc | hc
    · exact h.newlines c hc
    · rwa [List.mem_singleton.mp hc]
  have hstarts : ∀ re ∈ j.start, ∀ c ∈ (j.buf ++ [line]).tail,
      libs.isMatch re c.text = false := by
    intro re' hre' c hc
    by_cases hne : j.buf = []
    · simp [hne] at hc
    · rw [List.tail_append_of_ne_nil hne] at hc
      rcases List.mem_append.mp hc with hc | hc
      · exact h.starts re' hre' c hc
      · rw [List.mem_singleton.mp hc]
        cases hre.symm.trans hre'
        exact hnew hne
  have hlen : (j.buf ++ [line]).length ≤ j.maxLines := by
    rw [List.length_append]
    exact h.length
  rw [push]
  simp only [hre, hsame, Bool.false_eq_true, if_false]
  split
  · have hpos : 0 < j.maxLines := Nat.lt_of_le_of_lt (Nat.zero_le _) h.length
    refine ⟨inv_of_cleared (List.forall_mem_nil _) (Nat.zero_le _) hpos fun _ => rfl, hre.symm,
      rfl, ?_, ?_⟩
    · simp [recordLines_joined (by simp) hnewlines, cleared]
    · rintro r ⟨⟩
      rw [recordLines_joined (by simp) hnewlines]
      refine ⟨fun re' hre' l hl => ?_, by rw [List.length_map]; exact hlen⟩
      rw [← List.map_tail] at hl
      obtain ⟨c, hc, rfl⟩ := List.mem_map.mp hl
      exact hstarts re' hre' c hc
  · rename_i hfull
    refine ⟨⟨hnewlines, hre ▸ hstarts, ?_, by simp⟩, hre.symm, rfl, ?_,
      fun r hr => absurd hr (Option.not_mem_none r)⟩
    · exact Nat.lt_of_not_le fun hle => hfull (.inl hle)
    · simp

/-- **One call.** -/
theorem Inv.called (h : j.Inv libs) {c : Call} (hc : ∀ l ∈ c.pushed, '\n' ∉ l) :
    Called libs j c.pushed (j.call libs c).1 (j.call libs c).2 := by
  cases c with
  | push line now =>
      have hline : '\n' ∉ line.text := hc _ (List.mem_singleton_self _)
      cases hre : j.start with
      | none =>
          have hbuf := h.disabled hre
          have hpush : j.push libs line now = (some line, j) := by simp [push, hre]
          rw [call, hpush]
          refine ⟨h, rfl, rfl, ?_, ?_⟩
          · simp [hbuf, recordLines_of_notMem hline, Call.pushed]
          · rintro r ⟨⟩
            rw [recordLines_of_notMem hline]
            have hpos : 0 < j.maxLines := Nat.lt_of_le_of_lt (Nat.zero_le _) h.length
            exact ⟨fun _ _ _ hl => absurd hl List.not_mem_nil, hpos⟩
      | some re =>
          by_cases hnew : j.buf ≠ [] ∧ libs.isMatch re line.text = true
          · exact h.called_start hline hre hnew.1 hnew.2
          · exact h.called_continue hline hre fun hne => by simpa [hne] using hnew
  | expire now =>
      rw [call, expire]
      split
      · exact h.called_none
      · split
        · rename_i hexpired
          exact h.called_take hexpired.1
        · exact h.called_none
  | drain =>
      rw [call, drain]
      split
      · exact h.called_none
      · rename_i hne
        exact h.called_take hne

/-! ## A run -/

variable (libs) in
theorem inv_new (start : Option Text) (maxLines maxBytes timeoutMs : Nat) :
    (new start maxLines maxBytes timeoutMs).Inv libs :=
  inv_of_cleared (List.forall_mem_nil _) (Nat.zero_le _)
    (Nat.lt_of_lt_of_le Nat.zero_lt_one (Nat.le_max_right _ _)) fun _ => rfl

/-- Any list of calls, from any joiner. -/
theorem Inv.calls {cs : List Call} (h : j.Inv libs)
    (hcs : ∀ c ∈ cs, ∀ l ∈ c.pushed, '\n' ∉ l) :
    (j.calls libs cs).2.Inv libs
      ∧ (j.calls libs cs).2.start = j.start ∧ (j.calls libs cs).2.maxLines = j.maxLines
      ∧ (j.calls libs cs).1.flatMap recordLines ++ (j.calls libs cs).2.buf.map Chunk.text
        = j.buf.map Chunk.text ++ cs.flatMap Call.pushed
      ∧ ∀ r ∈ (j.calls libs cs).1, IsRecord libs j.start j.maxLines (recordLines r) := by
  induction cs generalizing j with
  | nil => exact ⟨h, rfl, rfl, (List.append_nil _).symm, fun _ hr => nomatch hr⟩
  | cons c cs ih =>
      have hc := h.called (hcs c (List.mem_cons_self ..))
      obtain ⟨hinv, hstart, hmax, hlines, hrecords⟩ :=
        ih hc.inv fun d hd => hcs d (List.mem_cons_of_mem _ hd)
      refine ⟨hinv, hstart.trans hc.start, hmax.trans hc.maxLines, ?_, ?_⟩
      · rw [Joiner.calls, List.flatMap_append, List.append_assoc, hlines, ← List.append_assoc,
          hc.lines, List.append_assoc, List.flatMap_cons]
      · intro r hr
        rcases List.mem_append.mp hr with hr | hr
        · exact hc.isRecord r (by simpa using hr)
        · rw [← hc.start, ← hc.maxLines]
          exact hrecords r hr

end

/-- **The joiner partitions its lines.** After any calls, the lines emitted and those
buffered are the lines pushed, in order; every record emitted, and what is buffered, has
at most `maxLines` lines (one, if that is zero) and starts only with its first; and
nothing is pending exactly if every line pushed was emitted. -/
theorem calls_partition (libs : Libs) (start : Option Text) (maxLines maxBytes timeoutMs : Nat)
    (cs : List Call) (hcs : ∀ c ∈ cs, ∀ l ∈ c.pushed, '\n' ∉ l) :
    let j := new start maxLines maxBytes timeoutMs
    let records := (j.calls libs cs).1
    let after := (j.calls libs cs).2
    (records ++ after.buf).flatMap recordLines = cs.flatMap Call.pushed
      ∧ (∀ r ∈ records, IsRecord libs start (max maxLines 1) (recordLines r))
      ∧ IsRecord libs start (max maxLines 1) (after.buf.flatMap recordLines)
      ∧ (after.hasPending = false
        ↔ records.flatMap recordLines = cs.flatMap Call.pushed) := by
  intro j records after
  obtain ⟨hinv, hstart, hmax, hlines, hrecords⟩ :=
    (inv_new libs start maxLines maxBytes timeoutMs).calls hcs
  have hpushed : records.flatMap recordLines ++ after.buf.map Chunk.text
      = cs.flatMap Call.pushed := hlines
  have hbuf := flatMap_recordLines hinv.newlines
  refine ⟨?_, hrecords, ?_, ?_⟩
  · rw [List.flatMap_append, hbuf]
    exact hpushed
  · rw [hbuf]
    have hrecord := hinv.isRecord
    rwa [hstart, hmax] at hrecord
  · rw [← hpushed, List.self_eq_append_right, List.map_eq_nil_iff]
    simp [hasPending]

/-- Libraries whose patterns are the texts a line begins with. -/
def literalLibs : Libs :=
  { display := fun _ => [], parseF64 := fun _ => none, floatOf := fun _ => ⟨0⟩
    render := fun _ => [], parseJson := fun _ => .error "", parseValue := fun _ => .error ""
    intError := fun _ => "", parseRfc3339 := fun _ => .error "", decodeLossy := id
    isMatch := fun p t => p.isPrefixOf t, replaceAll := fun _ _ t => t }

/-- A record of two lines, and one that reaches the byte cap with the line that starts it. -/
def trace : List Call :=
  [.push ⟨[0], "Sa".toList⟩ 0, .push ⟨[1], "at".toList⟩ 0, .push ⟨[2], "Slonger".toList⟩ 1,
    .expire 2, .drain]

theorem calls_partition_trace :
    let j := new (some ['S']) 5 8 1000
    let records := (j.calls literalLibs trace).1
    let after := (j.calls literalLibs trace).2
    (records ++ after.buf).flatMap recordLines = trace.flatMap Call.pushed
      ∧ (∀ r ∈ records, IsRecord literalLibs (some ['S']) (max 5 1) (recordLines r))
      ∧ IsRecord literalLibs (some ['S']) (max 5 1) (after.buf.flatMap recordLines)
      ∧ (after.hasPending = false
        ↔ records.flatMap recordLines = trace.flatMap Call.pushed) :=
  calls_partition literalLibs (some ['S']) 5 8 1000 trace (by decide)

/-- A cap of no lines counts as one: the record has a line. -/
theorem a_zero_cap_emits_a_line :
    ¬ ∀ r ∈ ((new (some ['S']) 0 8 1000).calls literalLibs [.push ⟨[0], ['S']⟩ 0]).1,
      (recordLines r).length ≤ 0 := by
  decide

end Tributary.Joiner
