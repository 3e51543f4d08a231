import Tributary.FileSource
import Tributary.Watermark.Allowance

/-!
# The allowance after a restart

The lateness a checkpoint brings back, through the calls that follow and into the next
checkpoint. With fewer samples than an estimate takes, the first advance puts the
ceiling in its place.
-/

namespace Tributary

namespace Watermark

/-- Observations and advances, and fewer observations than an estimate takes. -/
def Early (cs : List Call) : Prop :=
  (∀ l, Call.restore l ∉ cs) ∧ (observed cs).length < MIN_SAMPLES

def Call.advances : Call → Bool
  | .advance _ => true
  | _ => false

variable {w : Watermark} {cs : List Call}

theorem observe_samples_length (w : Watermark) (ts : Int) :
    (w.observe ts).samples.length ≤ w.samples.length + 1 := by
  simp only [observe]
  split
  · rw [List.length_append, List.length_singleton]
    split
    · rw [List.length_tail]
      omega
    · exact le_refl _
  · exact Nat.le_succ _

theorem calls_samples_length (w : Watermark) (cs : List Call) :
    (calls w cs).samples.length ≤ w.samples.length + (observed cs).length := by
  induction cs generalizing w with
  | nil => exact le_refl _
  | cons c cs ih =>
      cases c with
      | observe ts =>
          have hone := observe_samples_length w ts
          have hrest := ih (w.observe ts)
          have hlen : (observed (.observe ts :: cs)).length = (observed cs).length + 1 := rfl
          change (calls (w.observe ts) cs).samples.length ≤ _
          omega
      | advance ts => exact ih (w.advance ts)
      | restore l => exact ih (w.restore l)

/-- An advance with few samples takes the ceiling. -/
theorem advance_few (hfew : w.samples.length < MIN_SAMPLES) (ts : Int) :
    (w.advance ts).latenessNs = w.ceilingNs := if_pos hfew

/-- The allowance stays until the first advance, and is the ceiling from there. -/
theorem early_latenessNs (hnone : w.samples = []) (h : Early cs) :
    (calls w cs).latenessNs = if cs.any Call.advances then w.ceilingNs else w.latenessNs := by
  induction cs using List.reverseRecOn with
  | nil => simp [calls]
  | append_singleton cs c ih =>
      have hobserved : (observed cs).length ≤ (observed (cs ++ [c])).length := by
        simp [observed]
      have hbefore : Early cs := ⟨fun l hl => h.1 l (List.mem_append_left _ hl),
        lt_of_le_of_lt hobserved h.2⟩
      rw [calls_snoc]
      cases c with
      | observe ts =>
          rw [List.any_append, List.any_cons, List.any_nil]
          simp only [Call.advances, Bool.or_false]
          exact ih hbefore
      | advance ts =>
          have hfew : (calls w cs).samples.length < MIN_SAMPLES := by
            have hle := calls_samples_length w cs
            rw [hnone, List.length_nil, Nat.zero_add] at hle
            exact lt_of_le_of_lt hle hbefore.2
          rw [if_pos (by simp [Call.advances]), ← (calls_bounds w cs).2]
          exact advance_few hfew ts
      | restore l => exact absurd (List.mem_append_right _ (List.mem_singleton_self _)) (h.1 l)

theorem clamp_eq_ceiling {l floorNs ceilingNs : Int} :
    max ceilingNs floorNs = clamp l floorNs (max ceilingNs floorNs)
      ↔ ceilingNs ≤ l ∨ ceilingNs ≤ floorNs := by
  unfold clamp
  split
  · omega
  · split <;> omega

end Watermark

namespace FileSource

open Watermark Tail

/-- A source that starts on a checkpoint takes its allowance over. -/
theorem start_watermark {c : Config} {fs : Fs} {cp : Checkpoint} {adopted : Adopted} {s : State}
    {l : Int} (hstart : start c fs (some cp) adopted = some s) (hl : cp.latenessNs = some l) :
    s.watermark = (Watermark.new c.floorNs c.ceilingNs).restore l := by
  obtain ⟨tailer, -, rfl⟩ := Option.map_eq_some_iff.mp hstart
  simp [hl]

/-- **Resumed until the first advance.** While there are too few samples for an estimate,
every advance uses the restored allowance, and the next checkpoint has it, exactly if
there is no advance or the restored allowance is the ceiling. -/
theorem restored_allowance_iff (floorNs ceilingNs l : Int) (cs : List Call) (hearly : Early cs) :
    ((∀ before ts after, cs = before ++ .advance ts :: after →
        (calls ((Watermark.new floorNs ceilingNs).restore l) (before ++ [.advance ts])).latenessNs
          = clamp l floorNs (max ceilingNs floorNs)) ∧
      ∀ s : State, s.watermark = calls ((Watermark.new floorNs ceilingNs).restore l) cs →
        s.checkpoint.latenessNs = some (clamp l floorNs (max ceilingNs floorNs))) ↔
      (∀ ts, Call.advance ts ∉ cs) ∨ ceilingNs ≤ l ∨ ceilingNs ≤ floorNs := by
  have hallowance : ∀ ds, Early ds →
      (calls ((Watermark.new floorNs ceilingNs).restore l) ds).latenessNs
        = if ds.any Call.advances then max ceilingNs floorNs
          else clamp l floorNs (max ceilingNs floorNs) := fun ds hds => early_latenessNs rfl hds
  have hpast : ∀ before ts after, cs = before ++ .advance ts :: after →
      (calls ((Watermark.new floorNs ceilingNs).restore l) (before ++ [.advance ts])).latenessNs
        = max ceilingNs floorNs := by
    intro before ts after heq
    have hle : (observed (before ++ [.advance ts])).length ≤ (observed cs).length := by
      rw [heq]
      simp [observed]
    have hds : Early (before ++ [.advance ts]) := by
      refine ⟨fun l hl => hearly.1 l ?_, lt_of_le_of_lt hle hearly.2⟩
      rw [heq]
      simp only [List.mem_append, List.mem_singleton, reduceCtorEq, or_false] at hl
      exact List.mem_append_left _ hl
    rw [hallowance _ hds, if_pos (by simp [Call.advances])]
  constructor
  · rintro ⟨hadvances, -⟩
    refine or_iff_not_imp_left.mpr fun hsome => ?_
    push Not at hsome
    obtain ⟨ts, hts⟩ := hsome
    obtain ⟨before, after, heq⟩ := List.append_of_mem hts
    exact clamp_eq_ceiling.mp ((hpast before ts after heq).symm.trans
      (hadvances before ts after heq))
  · intro hcond
    constructor
    · intro before ts after heq
      rw [hpast before ts after heq]
      refine clamp_eq_ceiling.mpr (hcond.resolve_left fun hnone => hnone ts ?_)
      rw [heq]
      simp
    · intro s hs
      change some s.watermark.latenessNs = _
      rw [hs, hallowance cs hearly]
      split
      · rename_i hadvances
        obtain ⟨c, hc, hadvance⟩ := List.any_eq_true.mp hadvances
        cases c with
        | advance ts => exact congrArg some (clamp_eq_ceiling.mpr
            (hcond.resolve_left fun hnone => hnone ts hc))
        | observe ts => cases hadvance
        | restore l => cases hadvance
      · rfl

/-- The checkpoint is from a run with a higher ceiling: the advances use the ceiling, and
so does the next checkpoint. -/
theorem restored_allowance_iff_ceiling :
    (calls ((Watermark.new 100 60000).restore 90000)
        [.observe 7, .advance 7, .observe 3, .advance 9]).latenessNs = 60000 ∧
      ∀ s : State, s.watermark = calls ((Watermark.new 100 60000).restore 90000)
          [.observe 7, .advance 7, .observe 3, .advance 9] →
        s.checkpoint.latenessNs = some 60000 := by
  have hall := (restored_allowance_iff 100 60000 90000
    [.observe 7, .advance 7, .observe 3, .advance 9] ⟨by simp, by decide⟩).mpr
    (.inr (.inl (by decide)))
  exact ⟨hall.1 [.observe 7, .advance 7, .observe 3] 9 [] rfl, hall.2⟩

/-- One advance, and the allowance is the ceiling again. -/
theorem advance_forgets_restored :
    (calls ((Watermark.new 100 60000).restore 250) [.observe 7, .advance 7]).latenessNs = 60000 ∧
      clamp 250 100 (max 60000 100) = 250 := by
  decide

end FileSource

end Tributary
