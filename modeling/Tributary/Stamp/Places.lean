import Tributary.Stamp

/-!
# Places in a tick

Which timestamp a line gets, from the ticks of the lines before it alone: the
start of its own tick, and its place among the lines of that tick since the tick
was last opened.
-/

namespace Tributary.Stamp

open Lib

namespace Stamper

/-- The place of the next line of `tick` in it. `earlier` are the ticks of the lines
stamped since the stamper was `s`, the newest first. -/
def place (s : Stamper) (tick : Int) : (earlier : List Int) → Int
  | [] => (s.next.get tick).getD 0
  | t :: earlier =>
      -- a tick that is not in the window will be opened at zero
      if tick ∉ slides WINDOW s.order (t :: earlier).reverse then 0
      else if t = tick then place s tick earlier + 1
      else place s tick earlier

/-- The stamper `s` after lines of the ticks `earlier`. A counter that has reached
the end of its tick stays there. -/
structure After (s₀ : Stamper) (earlier : List Int) (s : Stamper) : Prop where
  wf : s.Wf
  tickNs : s.tickNs = s₀.tickNs
  order : s.order = slides WINDOW s₀.order earlier.reverse
  counter : ∀ τ c, s.next.get τ = some c →
    c = s₀.place τ earlier ∨ (s.tickNs ≤ c ∧ s.tickNs ≤ s₀.place τ earlier)

variable {s₀ s : Stamper} {earlier : List Int}

theorem After.refl (h : s.Wf) : After s [] s where
  wf := h
  tickNs := rfl
  order := rfl
  counter := fun τ c hc => .inl (by simp [place, hc])

/-- A tick that is not open has its place at the start. -/
theorem place_closed (hs : s₀.Wf) {tick : Int}
    (h : tick ∉ slides WINDOW s₀.order earlier.reverse) : s₀.place tick earlier = 0 := by
  cases earlier with
  | nil =>
      have hnone := hs.get_none (by simpa using h)
      simp [place, hnone]
  | cons t earlier => rw [place, if_pos h]

theorem slides_snoc (w : List Int) (t : Int) (earlier : List Int) :
    slides WINDOW w (t :: earlier).reverse
      = slide WINDOW (slides WINDOW w earlier.reverse) t := by
  rw [List.reverse_cons, slides_append]
  rfl

/-- **What a line gets**: its place in its tick, while the tick has places left. -/
theorem After.stamp_eq (h : After s₀ earlier s) (hs₀ : s₀.Wf) (hns : s₀.tickNs ≠ 1)
    (hpos : 0 < s₀.tickNs) (ts : Int) :
    (s.stamp ts).1 =
      if s₀.place (tickOf s₀.tickNs ts) earlier < s₀.tickNs then
        .ok (wrap64 (tickOf s₀.tickNs ts + s₀.place (tickOf s₀.tickNs ts) earlier))
      else .error (.exhausted s₀.tickNs ts) := by
  rw [← h.tickNs] at hns hpos ⊢
  by_cases hm : tickOf s.tickNs ts ∈ s.order
  · obtain ⟨c, hc, -⟩ := h.wf.get_some hm
    rcases h.counter _ c hc with rfl | ⟨hfull, hplace⟩
    · by_cases hfree : s₀.place (tickOf s.tickNs ts) earlier < s.tickNs
      · rw [if_pos hfree, stamp_hit hns hc hfree]
      · rw [if_neg hfree, stamp_exhausted hns hc (Int.not_lt.mp hfree)]
    · rw [if_neg (Int.not_lt.mpr hplace), stamp_exhausted hns hc hfull]
  · have hzero := place_closed hs₀ (h.order ▸ hm)
    rw [stamp_miss hns (h.wf.get_none hm), hzero, if_pos hpos, Int.add_zero]

theorem After.step (h : After s₀ earlier s) (hs₀ : s₀.Wf) (hns : s₀.tickNs ≠ 1) (ts : Int) :
    After s₀ (tickOf s₀.tickNs ts :: earlier) (s.stamp ts).2 := by
  have hns' : s.tickNs ≠ 1 := h.tickNs ▸ hns
  have horder : (s.stamp ts).2.order
      = slides WINDOW s₀.order (tickOf s₀.tickNs ts :: earlier).reverse := by
    rw [stamp_order h.wf hns', slides_snoc, h.order, h.tickNs]
  refine ⟨h.wf.stamp ts, by rw [stamp_tickNs, h.tickNs], horder, ?_⟩
  intro τ c hc
  rw [stamp_tickNs]
  have hopen : τ ∈ slides WINDOW s₀.order (tickOf s₀.tickNs ts :: earlier).reverse :=
    horder ▸ ((h.wf.stamp ts).counters τ).mp (by rw [hc]; rfl)
  rw [place, if_neg (not_not.mpr hopen)]
  rw [← h.tickNs] at hopen ⊢
  -- another tick keeps its counter, and its place
  have hother : tickOf s.tickNs ts ≠ τ → s.next.get τ = some c →
      c = (if tickOf s.tickNs ts = τ then s₀.place τ earlier + 1 else s₀.place τ earlier)
        ∨ (s.tickNs ≤ c ∧ s.tickNs ≤
          if tickOf s.tickNs ts = τ then s₀.place τ earlier + 1 else s₀.place τ earlier) := by
    intro hne hget
    rw [if_neg hne]
    exact h.counter τ c hget
  by_cases hm : tickOf s.tickNs ts ∈ s.order
  · obtain ⟨d, hd, -⟩ := h.wf.get_some hm
    have hplace := h.counter _ d hd
    by_cases hfree : d < s.tickNs
    · rw [stamp_hit hns' hd hfree] at hc
      by_cases hτ : tickOf s.tickNs ts = τ
      · subst hτ
        obtain rfl : d + 1 = c := by simpa using hc
        rw [if_pos rfl]
        omega
      · exact hother hτ (by simpa [Table.get_set, Ne.symm hτ] using hc)
    · rw [stamp_exhausted hns' hd (Int.not_lt.mp hfree)] at hc
      by_cases hτ : tickOf s.tickNs ts = τ
      · subst hτ
        obtain rfl : d = c := by simpa [hd] using hc
        rw [if_pos rfl]
        omega
      · exact hother hτ hc
  · rw [stamp_miss hns' (h.wf.get_none hm)] at hc
    simp only [get_after_miss h.wf hm] at hc
    split at hc
    · by_cases hτ : τ = tickOf s.tickNs ts
      · obtain rfl : 1 = c := by simpa [hτ] using hc
        rw [if_pos hτ.symm, hτ, place_closed hs₀ (h.order ▸ hm)]
        exact .inl rfl
      · exact hother (Ne.symm hτ) (by simpa [hτ] using hc)
    · cases hc

end Stamper

end Tributary.Stamp
