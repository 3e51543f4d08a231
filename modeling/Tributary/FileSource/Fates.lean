import Tributary.FileSource.Redaction

/-!
# What becomes of a completed record

A record is completed by a line that is read, by a timeout, or by the drain of the framer
at shutdown, and each of the three has a handler. They agree on a record that is blank,
dropped or encoded; what fails is filed and counted by the first two, and passed over by
the third.
-/

namespace Tributary.FileSource

open Lib Lp Map Stamp Transform

/-- What the handlers of a completed record read and change. -/
structure Handled where
  stamper : Stamper
  watermark : Watermark
  batch : List Line
  batchMaxTs : Int
  deadLetter : List Dead
  readTotal : Nat
  quarantined : Nat
  droppedFilter : Nat
  droppedSample : Nat

def State.handled (s : State) : Handled :=
  { stamper := s.stamper, watermark := s.watermark, batch := s.batch, batchMaxTs := s.batchMaxTs
    deadLetter := s.deadLetter, readTotal := s.readTotal, quarantined := s.quarantined
    droppedFilter := s.droppedFilter, droppedSample := s.droppedSample }

/-- The step is one in which the framer completes the record. -/
def Completes (c : Config) (s : State) (record : Chunk) (now : Int) : Event → Prop
  | .next nowNs nowMs => nowNs = now ∧ s.phase = .reading ∧ s.queue.full = false ∧
      ∃ raw, (Tail.Tailer.nextLine s.fs s.tailer).1 = some raw ∧
        (s.framer.push c.libs ⟨[s.read], c.libs.decodeLossy raw⟩ nowMs).1 = .ok (some record)
  | .expire nowNs nowMs order => nowNs = now ∧ s.phase = .expiring ∧
      (s.framer.expire c.libs nowMs order).1 = some record
  | .unframe nowNs order => nowNs = now ∧ s.phase = .unframing ∧
      (s.framer.drain c.libs order).1 = some record
  | _ => False

/-- The step is one of the shutdown loop. -/
def Event.atShutdown : Event → Bool
  | .unframe _ _ => true
  | _ => false

/-- The line is blank, or it maps to a record that is dropped or that has a slot in its
tick and an encoding. -/
def Sound (c : Config) (s : State) (now : Int) (line : Text) : Prop :=
  mapLine c.libs c.source line now = .error .empty ∨
    ∃ record ts, mapLine c.libs c.source line now = .ok (record, ts)
      ∧ (Kept c.libs s.rules record ts → HasSlot s ts ∧ record.Encodable)

section

variable {c : Config} {s s' s₁ s₂ s₁' s₂' : State} {record : Chunk} {now : Int} {e e₁ e₂ : Event}

/-! ## The two handlers -/

/-- A handler sees nothing of the state but what it handles, and the rules. -/
theorem take_handled (h : s₁.handled = s₂.handled) (hrules : s₁.rules = s₂.rules) :
    (s₁.take c record now).handled = (s₂.take c record now).handled := by
  simp only [State.handled, Handled.mk.injEq] at h
  obtain ⟨hstamper, hwm, hbatch, hmax, hdead, hread, hquarantined, hfilter, hsample⟩ := h
  simp only [State.take, hstamper, hwm, hrules]
  split
  · split
    · simp [State.handled, State.enlist, hbatch, hmax, hdead, hread, hquarantined, hfilter, hsample]
    · simp [State.handled, State.unencoded, State.refuse, hbatch, hmax, hdead, hread, hquarantined,
        hfilter, hsample]
  · simp [State.handled, hbatch, hmax, hdead, hread, hquarantined, hfilter, hsample]
  · rename_i stage _
    cases stage <;> simp [State.handled, State.countDrop, hbatch, hmax, hdead, hread, hquarantined,
      hfilter, hsample]
  · simp [State.handled, State.refuse, hbatch, hmax, hdead, hread, hquarantined, hfilter, hsample]

theorem takeLast_handled (h : s₁.handled = s₂.handled) (hrules : s₁.rules = s₂.rules) :
    (s₁.takeLast c record now).handled = (s₂.takeLast c record now).handled := by
  simp only [State.handled, Handled.mk.injEq] at h
  obtain ⟨hstamper, hwm, hbatch, hmax, hdead, hread, hquarantined, hfilter, hsample⟩ := h
  simp only [State.takeLast, hstamper, hwm, hrules]
  split
  · split
    · simp [State.handled, State.enlist, hbatch, hmax, hdead, hread, hquarantined, hfilter, hsample]
    · simp [State.handled, State.unencoded, hbatch, hmax, hdead, hread, hquarantined, hfilter,
        hsample]
  · rename_i stage _
    cases stage <;> simp [State.handled, State.countDrop, hbatch, hmax, hdead, hread, hquarantined,
      hfilter, hsample]
  · simp [State.handled, hbatch, hmax, hdead, hread, hquarantined, hfilter, hsample]
  · simp [State.handled, hbatch, hmax, hdead, hread, hquarantined, hfilter, hsample]

/-- **The handlers agree** on sound records. -/
theorem takeLast_of_sound (h : Sound c s now record.text) :
    s.takeLast c record now = s.take c record now := by
  obtain ⟨ids, line⟩ := record
  rcases h with hblank | ⟨r, ts, hmap, hkept⟩
  · simp only [State.take, State.takeLast, build, hblank]
    rfl
  · by_cases hin : Kept c.libs s.rules r ts
    · obtain ⟨⟨tsNs, hstamp⟩, henc⟩ := hkept hin
      rw [take_in hmap hin hstamp henc, takeLast_in hmap hin hstamp henc]
    · rw [take_out hmap hin, takeLast_out hmap hin]

/-- Nothing is filed at shutdown. -/
theorem takeLast_deadLetter : (s.takeLast c record now).deadLetter = s.deadLetter := by
  rw [State.takeLast]
  dsimp only
  split
  · split <;> rfl
  · rename_i stage _
    cases stage <;> rfl
  · rfl
  · rfl

/-- On any other record they differ: one files it. -/
theorem sound_of_handled (h : (s.takeLast c record now).handled = (s.take c record now).handled) :
    Sound c s now record.text := by
  by_contra hnot
  obtain ⟨hblank, hlost⟩ := not_or.mp hnot
  obtain ⟨reason, hreason⟩ := take_refused record.ids hblank hlost
  have hdead := congrArg Handled.deadLetter h
  rw [State.handled, State.handled] at hdead
  dsimp only at hdead
  rw [takeLast_deadLetter, hreason, List.self_eq_append_right] at hdead
  cases hdead

/-! ## The three paths -/

@[simp] theorem handled_go (s : State) (phase : Phase) : (s.go phase).handled = s.handled := by
  rw [State.go]
  split <;> rfl

/-- A step that completes a record hands it to the handler of its path. -/
theorem step_completes (h : Completes c s record now e) (hs : step c s e = some s') :
    s'.handled = if e.atShutdown then (s.takeLast c record now).handled
      else (s.take c record now).handled := by
  have hrunning : ∀ phase, s.phase = phase → phase ≠ .stopped → ¬ s.phase = .stopped :=
    fun phase hp hne he => hne (hp.symm.trans he)
  cases e with
  | next nowNs nowMs =>
      obtain ⟨rfl, hphase, hfull, raw, hraw, hpush⟩ := h
      rw [step, if_neg (hrunning _ hphase (by simp))] at hs
      rw [next, if_neg (not_not.mpr hphase), if_neg (by simp [hfull])] at hs
      rcases hnext : Tail.Tailer.nextLine s.fs s.tailer with ⟨answer, tailer⟩
      rw [hnext] at hraw hs
      obtain rfl : answer = some raw := hraw
      rcases hframer : s.framer.push c.libs ⟨[s.read], c.libs.decodeLossy raw⟩ nowMs with
        ⟨out, framer⟩
      rw [hframer] at hpush
      obtain rfl : out = .ok (some record) := hpush
      simp only [hframer] at hs
      have htake : (State.take c { s with tailer, idle := false, read := s.read + 1, framer } record
          nowNs).handled = (s.take c record nowNs).handled := take_handled rfl rfl
      split at hs
      · cases hs
        rw [handled_go]
        exact htake
      · cases hs
        exact htake
  | expire nowNs nowMs order =>
      obtain ⟨rfl, hphase, hexpire⟩ := h
      rw [step, if_neg (hrunning _ hphase (by simp))] at hs
      rw [FileSource.expire, if_neg (not_not.mpr hphase)] at hs
      rcases hframer : s.framer.expire c.libs nowMs order with ⟨out, framer⟩
      rw [hframer] at hexpire hs
      obtain rfl : out = some record := hexpire
      cases hs
      rw [handled_go]
      exact take_handled rfl rfl
  | unframe nowNs order =>
      obtain ⟨rfl, hphase, hdrain⟩ := h
      rw [step, if_neg (hrunning _ hphase (by simp))] at hs
      rw [unframe, if_neg (not_not.mpr hphase)] at hs
      rcases hframer : s.framer.drain c.libs order with ⟨out, framer⟩
      rw [hframer] at hdrain hs
      obtain rfl : out = some record := hdrain
      cases hs
      exact takeLast_handled rfl rfl
  | _ => cases h

/-- **One fate, whatever path completes the record**: two paths do the same to what the
handlers change, exactly if the record is sound, or both are the drain at shutdown, or
neither is. -/
theorem fates_agree_iff (hsame : s₁.handled = s₂.handled) (hrules : s₁.rules = s₂.rules)
    (h₁ : Completes c s₁ record now e₁) (h₂ : Completes c s₂ record now e₂)
    (hs₁ : step c s₁ e₁ = some s₁') (hs₂ : step c s₂ e₂ = some s₂') :
    s₁'.handled = s₂'.handled
      ↔ Sound c s₁ now record.text ∨ e₁.atShutdown = e₂.atShutdown := by
  rw [step_completes h₁ hs₁, step_completes h₂ hs₂, ← take_handled hsame hrules,
    ← takeLast_handled hsame hrules]
  cases e₁.atShutdown <;> cases e₂.atShutdown
  · simp
  · simp only [Bool.false_eq_true, if_false, if_true, or_false]
    exact ⟨fun h => sound_of_handled h.symm, fun h => by rw [takeLast_of_sound h]⟩
  · simp only [Bool.false_eq_true, if_false, if_true, or_false, Bool.true_eq_false]
    exact ⟨sound_of_handled, fun h => by rw [takeLast_of_sound h]⟩
  · simp

end

/-! ## A line that does not map, behind a quiet file -/

/-- The state with a line in the joiner whose timeout has passed. -/
def State.holding (s : State) (line : Text) (phase : Phase) : State :=
  { s with
    framer := .multiline
      { Joiner.new (some ['S']) 500 65536 0 with buf := [⟨[0], line⟩], since := some 0 }
    phase }

/-- The record of the line. -/
def heldRecord (line : Text) : Chunk := Joiner.joined [⟨[0], line⟩]

theorem text_heldRecord (line : Text) : (heldRecord line).text = line := by
  simp [heldRecord, Joiner.joined, List.intercalate]

theorem completes_holding (c : Config) (s : State) (line : Text) :
    Completes c (s.holding line .expiring) (heldRecord line) 5 (.expire 5 0 [])
      ∧ Completes c (s.holding line .unframing) (heldRecord line) 5 (.unframe 5 []) :=
  ⟨⟨rfl, rfl, rfl⟩, ⟨rfl, rfl, rfl⟩⟩

theorem handled_holding (s : State) (line : Text) (phase phase' : Phase) :
    (s.holding line phase).handled = (s.holding line phase').handled := rfl

theorem fates_agree_iff_plain :
    ∃ s s₁ s₂, start digitConfig (oneFile []) none nothingQueued = some s
      ∧ step digitConfig (s.holding "pin 1234".toList .expiring) (.expire 5 0 []) = some s₁
      ∧ step digitConfig (s.holding "pin 1234".toList .unframing) (.unframe 5 []) = some s₂
      ∧ (s₁.handled = s₂.handled
        ↔ Sound digitConfig (s.holding "pin 1234".toList .expiring) 5
            (heldRecord "pin 1234".toList).text ∨ false = true) := by
  obtain ⟨s, hstart⟩ : ∃ s, start digitConfig (oneFile []) none nothingQueued = some s := ⟨_, rfl⟩
  obtain ⟨h₁, h₂⟩ := completes_holding digitConfig s "pin 1234".toList
  have hsame := handled_holding s "pin 1234".toList .expiring .unframing
  exact ⟨s, _, _, hstart, rfl, rfl, fates_agree_iff hsame rfl h₁ h₂ rfl rfl⟩

/-- The line is filed if its timeout completes it, and lost without a trace if shutdown
does. -/
theorem shutdown_passes_over :
    ∃ s s₁ s₂, start pinConfig (oneFile []) none nothingQueued = some s
      ∧ Completes pinConfig (s.holding (pinLine "1234") .expiring) (heldRecord (pinLine "1234")) 5
        (.expire 5 0 [])
      ∧ Completes pinConfig (s.holding (pinLine "1234") .unframing) (heldRecord (pinLine "1234")) 5
        (.unframe 5 [])
      ∧ step pinConfig (s.holding (pinLine "1234") .expiring) (.expire 5 0 []) = some s₁
      ∧ step pinConfig (s.holding (pinLine "1234") .unframing) (.unframe 5 []) = some s₂
      ∧ s₁.handled ≠ s₂.handled := by
  obtain ⟨s, hstart⟩ : ∃ s, start pinConfig (oneFile []) none nothingQueued = some s := ⟨_, rfl⟩
  obtain ⟨h₁, h₂⟩ := completes_holding pinConfig s (pinLine "1234")
  refine ⟨s, _, _, hstart, h₁, h₂, rfl, rfl, fun hsame => ?_⟩
  rw [step_completes h₁ rfl, step_completes h₂ rfl] at hsame
  simp only [Event.atShutdown, Bool.false_eq_true, if_false, if_true] at hsame
  rw [take_handled (handled_holding s (pinLine "1234") .expiring .unframing) rfl] at hsame
  rcases sound_of_handled hsame.symm with hblank | ⟨_, _, hmap, -⟩
  · rw [text_heldRecord] at hblank
    exact nomatch mapLine_pinLine.symm.trans hblank
  · rw [text_heldRecord] at hmap
    exact nomatch mapLine_pinLine.symm.trans hmap

end Tributary.FileSource
