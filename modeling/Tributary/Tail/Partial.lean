import Tributary.Tail

/-!
# Files that end in the middle of a line

A writer may stop in the middle of a line. The lines of a file are then those that
have their newline; one call on an open file gives the first of them that is left.
-/

namespace Tributary

namespace Text

/-! ## Whole lines -/

/-- The lines that have their newline. -/
def wholeLines (t : Text) : List Text :=
  ((splitInclusive t).filter fun l => decide (l.getLast? = some '\n')).map stripEol

@[simp] theorem wholeLines_nil : wholeLines [] = [] := rfl

theorem readUntil_append_of_mem {s : Text} (h : '\n' ∈ s) (t : Text) :
    readUntil (s ++ t) = readUntil s := by
  induction s with
  | nil => cases h
  | cons c cs ih =>
      rw [List.cons_append, readUntil, readUntil]
      split
      · rfl
      · rename_i hc
        rw [ih ((List.mem_cons.mp h).resolve_left (Ne.symm hc))]

theorem readUntil_append_of_notMem {s : Text} (h : '\n' ∉ s) (t : Text) :
    readUntil (s ++ t) = s ++ readUntil t := by
  induction s with
  | nil => rfl
  | cons c cs ih =>
      obtain ⟨hc, hcs⟩ := not_or.mp (List.mem_cons.not.mp h)
      rw [List.cons_append, readUntil, if_neg (Ne.symm hc), ih hcs]
      rfl

theorem take_readUntil (t : Text) : t.take (readUntil t).length = readUntil t := by
  induction t with
  | nil => rfl
  | cons c cs ih =>
      rw [readUntil]
      split
      · rfl
      · rw [List.length_cons, List.take_succ_cons, ih]

theorem getLast_readUntil {t : Text} (h : '\n' ∈ t) : (readUntil t).getLast? = some '\n' := by
  induction t with
  | nil => cases h
  | cons c cs ih =>
      rw [readUntil]
      split
      · rename_i hc
        rw [hc]
        rfl
      · rename_i hc
        rw [List.getLast?_cons, ih ((List.mem_cons.mp h).resolve_left (Ne.symm hc))]
        rfl

/-- A text with a newline has the line up to it, and those behind it. -/
theorem wholeLines_of_mem {t : Text} (h : '\n' ∈ t) :
    wholeLines t = stripEol (readUntil t) :: wholeLines (t.drop (readUntil t).length) := by
  rw [wholeLines, splitInclusive_eq_cons (List.ne_nil_of_mem h),
    List.filter_cons_of_pos (by simp [getLast_readUntil h]), List.map_cons]
  rfl

theorem wholeLines_of_notMem {t : Text} (h : '\n' ∉ t) : wholeLines t = [] := by
  by_cases hne : t = []
  · rw [hne, wholeLines_nil]
  · have hlast : t.getLast? ≠ some '\n' := fun hl => h (List.mem_of_getLast? hl)
    rw [wholeLines, splitInclusive_eq_cons hne, readUntil_of_notMem h, List.drop_length]
    simp [splitInclusive, hlast]

theorem wholeLines_eq_nil_iff {t : Text} : wholeLines t = [] ↔ '\n' ∉ t := by
  refine ⟨fun h hmem => ?_, wholeLines_of_notMem⟩
  rw [wholeLines_of_mem hmem] at h
  cases h

theorem complete_readUntil {t : Text} (h : '\n' ∈ t) : Complete (readUntil t) :=
  .inr (getLast_readUntil h)

/-- A complete text has no other lines. -/
theorem Complete.wholeLines {t : Text} (h : Complete t) : Text.wholeLines t = lines t := by
  induction hlen : t.length using Nat.strongRecOn generalizing t with
  | ind n ih =>
      by_cases hne : t = []
      · rw [hne, wholeLines_nil, lines_nil]
      · have hmem : '\n' ∈ t := List.mem_of_getLast? (h.resolve_left hne)
        have hpos := List.length_pos_of_ne_nil (readUntil_ne_nil hne)
        have hle := length_readUntil_le t
        rw [wholeLines_of_mem hmem, lines_eq_cons hne,
          ih (t.length - (Text.readUntil t).length) (by omega) (h.drop _) List.length_drop]

/-- Behind complete lines a new line starts. -/
theorem Complete.wholeLines_append {s : Text} (h : Complete s) (t : Text) :
    Text.wholeLines (s ++ t) = lines s ++ Text.wholeLines t := by
  rw [← h.wholeLines, Text.wholeLines, h.splitInclusive_append, List.filter_append,
    List.map_append]
  rfl

/-- What `read_until` reads is one line. -/
theorem lines_readUntil {t : Text} (h : '\n' ∈ t) :
    lines (readUntil t) = [stripEol (readUntil t)] := by
  have hne : readUntil t ≠ [] := readUntil_ne_nil (List.ne_nil_of_mem h)
  have hsame : readUntil (readUntil t) = readUntil t := by
    clear hne
    induction t with
    | nil => cases h
    | cons c cs ih =>
        by_cases hc : c = '\n'
        · simp [readUntil, hc]
        · simp only [readUntil, if_neg hc]
          rw [ih ((List.mem_cons.mp h).resolve_left (Ne.symm hc))]
  rw [lines_eq_cons hne, hsame, List.drop_length, lines_nil]

end Text

namespace Tail

open Text

/-! ## One call -/

variable {fs : Fs} {o : Open}

/-- The lines an open file has left to give. -/
def Open.left (fs : Fs) (o : Open) : List Text := wholeLines (o.unread fs)

/-- What one call on a file leaves: a line further, at the start of a line. -/
structure Open.Read (fs : Fs) (o : Open) (line : Text) (o' : Open) : Prop where
  id : o'.id = o.id
  path : o'.path = o.path
  offset : o'.offset = o.offset + (readUntil (o.unread fs)).length
  newline : '\n' ∈ o.unread fs
  text : line = stripEol (readUntil (o.unread fs))
  left : o.left fs = line :: o'.left fs

/-- A call gives the first line left, if there is one. -/
theorem Open.nextLine_left (fs : Fs) (o : Open) :
    (o.left fs = [] ∧ o.nextLine fs = (none, o))
      ∨ ∃ line o', o.nextLine fs = (some line, o') ∧ o.Read fs line o' := by
  by_cases hmem : '\n' ∈ o.unread fs
  · right
    have hne := readUntil_ne_nil (List.ne_nil_of_mem hmem)
    refine ⟨stripEol (readUntil (o.unread fs)),
      { o with offset := o.offset + (readUntil (o.unread fs)).length }, ?_, ?_⟩
    · simp [Open.nextLine, hne, getLast_readUntil hmem]
    · refine ⟨rfl, rfl, rfl, hmem, rfl, ?_⟩
      rw [Open.left, wholeLines_of_mem hmem, Open.left, Open.unread, Open.unread, List.drop_drop]
  · left
    refine ⟨wholeLines_of_notMem hmem, ?_⟩
    unfold Open.nextLine
    simp only [readUntil_of_notMem hmem]
    split
    · rfl
    · rw [if_pos fun hlast => hmem (List.mem_of_getLast? hlast)]

/-- The call ends within the file. -/
theorem Open.Read.length {line : Text} {o' : Open} (h : o.Read fs line o') :
    o'.offset ≤ fs.len o.id := by
  have hle := length_readUntil_le (o.unread fs)
  have hpos := List.length_pos_of_mem h.newline
  rw [Open.unread, List.length_drop] at hle hpos
  rw [h.offset, Fs.len, Open.unread]
  omega

/-- The bytes read then end with the line. -/
theorem Open.Read.take {line : Text} {o' : Open} (h : o.Read fs line o') :
    (fs.content o'.id).take o'.offset
      = (fs.content o.id).take o.offset ++ readUntil (o.unread fs) := by
  rw [h.id, h.offset, List.take_add, ← Open.unread, take_readUntil]

/-- Draining gives the first line the files have left, and drops those before it. -/
theorem drainPending_left (fs : Fs) (os : List Open) :
    ((∀ o ∈ os, o.left fs = []) ∧ Tailer.drainPending fs os = (none, []))
      ∨ ∃ dropped o rest line o', os = dropped ++ o :: rest ∧ (∀ d ∈ dropped, d.left fs = [])
        ∧ o.Read fs line o' ∧ Tailer.drainPending fs os = (some line, o' :: rest) := by
  induction os with
  | nil => exact .inl ⟨fun _ ho => (nomatch ho), rfl⟩
  | cons o os ih =>
      rcases o.nextLine_left fs with ⟨hnone, he⟩ | ⟨line, o', he, hread⟩
      · rw [Tailer.drainPending, he]
        rcases ih with ⟨hall, hd⟩ | ⟨dropped, p, rest, line, p', rfl, hdropped, hread, hd⟩
        · refine .inl ⟨fun p hp => ?_, hd⟩
          rcases List.mem_cons.mp hp with rfl | hp
          · exact hnone
          · exact hall p hp
        · refine .inr ⟨o :: dropped, p, rest, line, p', rfl, fun d hdm => ?_, hread, hd⟩
          rcases List.mem_cons.mp hdm with rfl | hdm
          · exact hnone
          · exact hdropped d hdm
      · rw [Tailer.drainPending, he]
        exact .inr ⟨[], o, os, line, o', rfl, fun _ hd => (nomatch hd), hread, rfl⟩

end Tail

end Tributary
