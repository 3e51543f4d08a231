import Tributary.Stamp

/-!
# Replay after a crash

A checkpoint carries one tick and its counter, the live stamper up to
`WINDOW` of them. The resumed stamper therefore knows a suffix of the live
one's window, and answers alike for as long as no line falls into a tick that
only the live one remembers. This module proves that this is exactly when a
replay reproduces the timestamps of the first run.
-/

namespace Tributary.Stamp

open Lib

namespace Stamper

/-- The answers to the timestamps after the first `k`, from the stamper that
never stopped. -/
def uninterrupted (res : Resolution) (tss : List Int) (k : Nat) :
    List (Except StampError Int) :=
  ((new res).stampAll tss).1.drop k

/-- The answers to the same timestamps from the stamper restored from the
checkpoint taken after the first `k`. -/
def replayed (res : Resolution) (tss : List Int) (k : Nat) : List (Except StampError Int) :=
  ((resume res ((new res).stampAll (tss.take k)).2.save).stampAll (tss.drop k)).1

/-! ## Two stampers that agree on the newest ticks -/

/-- `r` remembers the newest ticks of `s`, with the same counters. -/
structure Agree (s r : Stamper) : Prop where
  left : s.Wf
  right : r.Wf
  tickNs : r.tickNs = s.tickNs
  suffix : r.order <:+ s.order
  counters : ∀ τ ∈ r.order, r.next.get τ = s.next.get τ

/-- A hit advances the counter of its tick on both sides. -/
theorem Agree.hit {s r : Stamper} (h : Agree s r) {ts : Int} (h1 : s.tickNs ≠ 1)
    (hr : tickOf s.tickNs ts ∈ r.order) :
    (r.stamp ts).1 = (s.stamp ts).1 ∧ Agree (s.stamp ts).2 (r.stamp ts).2 := by
  have hs : tickOf s.tickNs ts ∈ s.order := h.suffix.subset hr
  have h1r : r.tickNs ≠ 1 := h.tickNs ▸ h1
  obtain ⟨c, hc, -⟩ := h.left.get_some hs
  have hcr : r.next.get (tickOf r.tickNs ts) = some c := by
    rw [h.tickNs, h.counters _ hr, hc]
  have hwl := h.left.stamp ts
  have hwr := h.right.stamp ts
  by_cases hfree : c < s.tickNs
  · rw [stamp_hit h1 hc hfree] at hwl ⊢
    rw [stamp_hit h1r hcr (h.tickNs ▸ hfree)] at hwr ⊢
    refine ⟨by rw [h.tickNs], hwl, hwr, h.tickNs, h.suffix, fun τ hτ => ?_⟩
    simp only [Table.get_set, h.tickNs, h.counters τ hτ]
  · have hfull := Int.not_lt.mp hfree
    rw [stamp_exhausted h1 hc hfull]
    rw [stamp_exhausted h1r hcr (h.tickNs ▸ hfull)]
    exact ⟨by rw [h.tickNs], h⟩

/-- A tick neither side remembers is opened on both. -/
theorem Agree.miss {s r : Stamper} (h : Agree s r) {ts : Int} (h1 : s.tickNs ≠ 1)
    (hs : tickOf s.tickNs ts ∉ s.order) :
    (r.stamp ts).1 = (s.stamp ts).1 ∧ Agree (s.stamp ts).2 (r.stamp ts).2 := by
  have hr : tickOf s.tickNs ts ∉ r.order := fun hm => hs (h.suffix.subset hm)
  have h1r : r.tickNs ≠ 1 := h.tickNs ▸ h1
  have hnr : r.next.get (tickOf r.tickNs ts) = none := by
    rw [h.tickNs]
    exact h.right.get_none hr
  have hwl := h.left.stamp ts
  have hwr := h.right.stamp ts
  rw [stamp_miss h1 (h.left.get_none hs)] at hwl ⊢
  rw [stamp_miss h1r hnr] at hwr ⊢
  have hsuf := slide_suffix (n := WINDOW) (x := tickOf s.tickNs ts) h.suffix
    (fun hm => absurd hm hs)
  rw [slide_fresh hs, slide_fresh hr] at hsuf
  refine ⟨by rw [h.tickNs], hwl, hwr, h.tickNs, by rw [h.tickNs]; exact hsuf, fun τ hτ => ?_⟩
  simp only [h.tickNs] at hτ ⊢
  rw [get_after_miss h.right hr, get_after_miss h.left hs, if_pos hτ,
    if_pos (hsuf.subset hτ)]
  by_cases hτe : τ = tickOf s.tickNs ts
  · rw [if_pos hτe, if_pos hτe]
  · rw [if_neg hτe, if_neg hτe]
    rcases List.mem_append.mp ((lastN_suffix _ _).subset hτ) with hm | hm
    · exact h.counters τ hm
    · exact absurd (List.mem_singleton.mp hm) hτe

/-- **Agreement is kept** by every timestamp whose tick is not remembered by
the longer window alone, and the answers are equal. -/
theorem Agree.step {s r : Stamper} (h : Agree s r) {ts : Int} (h1 : s.tickNs ≠ 1)
    (hk : tickOf s.tickNs ts ∈ s.order → tickOf s.tickNs ts ∈ r.order) :
    (r.stamp ts).1 = (s.stamp ts).1 ∧ Agree (s.stamp ts).2 (r.stamp ts).2 := by
  by_cases hs : tickOf s.tickNs ts ∈ s.order
  · exact h.hit h1 (hk hs)
  · exact h.miss h1 hs

/-- A tick only the longer window remembers is counted on there and opened at
zero here: the answers differ. -/
theorem Agree.diverge {s r : Stamper} (h : Agree s r) {ts : Int} (h1 : s.tickNs ≠ 1)
    (hlt : s.tickNs < 18446744073709551616)
    (hs : tickOf s.tickNs ts ∈ s.order) (hr : tickOf s.tickNs ts ∉ r.order) :
    (r.stamp ts).1 ≠ (s.stamp ts).1 := by
  have hnr : r.next.get (tickOf r.tickNs ts) = none := by
    rw [h.tickNs]
    exact h.right.get_none hr
  obtain ⟨c, hc, hpos⟩ := h.left.get_some hs
  rw [stamp_miss (h.tickNs ▸ h1) hnr, h.tickNs]
  by_cases hfree : c < s.tickNs
  · rw [stamp_hit h1 hc hfree]
    intro he
    exact wrap64_add_ne hpos (by omega) (Except.ok.inj he).symm
  · rw [stamp_exhausted h1 hc (Int.not_lt.mp hfree)]
    intro he
    cases he

/-- Run against run: the answers are equal throughout exactly when no tick of
the input is, at its turn, remembered by the longer window alone. -/
theorem Agree.stampAll_iff {s r : Stamper} (h : Agree s r) (h1 : s.tickNs ≠ 1)
    (hlt : s.tickNs < 18446744073709551616) (tss : List Int) :
    (r.stampAll tss).1 = (s.stampAll tss).1
      ↔ ∀ pre ts post, tss = pre ++ ts :: post →
          tickOf s.tickNs ts ∈ slides WINDOW s.order (pre.map (tickOf s.tickNs)) →
          tickOf s.tickNs ts ∈ slides WINDOW r.order (pre.map (tickOf s.tickNs)) := by
  induction tss generalizing s r with
  | nil => simp [stampAll]
  | cons t rest ih =>
      simp only [stampAll, List.cons.injEq]
      by_cases hk : tickOf s.tickNs t ∈ s.order → tickOf s.tickNs t ∈ r.order
      · obtain ⟨heq, hagree⟩ := h.step h1 hk
        have hrest := ih hagree (by simpa using h1) (by simpa using hlt)
        simp only [stamp_tickNs, stamp_order h.left h1,
          stamp_order h.right (h.tickNs ▸ h1), h.tickNs] at hrest
        rw [hrest]
        constructor
        · rintro ⟨-, hall⟩ pre ts post hsplit
          cases pre with
          | nil =>
              obtain ⟨rfl, rfl⟩ := List.cons.inj hsplit
              exact hk
          | cons p pre =>
              obtain ⟨rfl, rfl⟩ := List.cons.inj hsplit
              exact hall pre ts post rfl
        · intro hall
          refine ⟨heq, fun pre ts post hsplit => ?_⟩
          exact hall (t :: pre) ts post (by rw [hsplit]; rfl)
      · -- the heads already differ
        have hs : tickOf s.tickNs t ∈ s.order := by
          by_contra hn
          exact hk fun hm => absurd hm hn
        have hr : tickOf s.tickNs t ∉ r.order := fun hm => hk fun _ => hm
        constructor
        · rintro ⟨heq, -⟩
          exact absurd heq (h.diverge h1 hlt hs hr)
        · intro hall
          exact absurd (hall [] t rest rfl hs) hr

/-! ## The resumed stamper -/

theorem Resolution.tickNs_lt (res : Resolution) : res.tickNs < 18446744073709551616 := by
  cases res <;> decide

/-- What the resumed stamper remembers: the tick opened last. -/
theorem resume_order {s : Stamper} (hs : s.Wf) {res : Resolution} (h1 : res.tickNs ≠ 1) :
    (resume res s.save).order = s.order.getLast?.toList := by
  cases hl : s.order.getLast? with
  | none => simp [resume, save, checkpoint, hl, new]
  | some τ =>
      obtain ⟨c, hc, -⟩ := hs.get_some (List.mem_of_getLast? hl)
      simp [resume, save, checkpoint, hl, hc, restore, new, h1]

theorem resume_tickNs (res : Resolution) (cp : Checkpoint) :
    (resume res cp).tickNs = res.tickNs := by
  unfold resume
  split
  · rw [restore]
    split <;> rfl
  · rfl

theorem agree_resume {s : Stamper} (hs : s.Wf) {res : Resolution} (h1 : res.tickNs ≠ 1)
    (htick : s.tickNs = res.tickNs) : Agree s (resume res s.save) := by
  have horder := resume_order hs h1
  cases hl : s.order.getLast? with
  | none =>
      have hempty : resume res s.save = new res := by
        simp [resume, save, checkpoint, hl]
      rw [hempty]
      exact ⟨hs, Wf.new res, htick.symm, List.nil_suffix, by simp [new]⟩
  | some τ =>
      have hτ : τ ∈ s.order := List.mem_of_getLast? hl
      obtain ⟨c, hc, hpos⟩ := hs.get_some hτ
      have hr : resume res s.save = (new res).restore τ c := by
        simp [resume, save, checkpoint, hl, hc]
      have hnext : ∀ σ, (resume res s.save).next.get σ = if σ = τ then some c else none := by
        intro σ
        rw [hr, restore, if_neg (by exact h1)]
        simp [Table.get_set, new]
      rw [hl, Option.toList_some] at horder
      refine ⟨hs, ⟨?_, ?_, fun σ => ?_, fun σ d => ?_⟩, ?_, ?_, fun σ hσ => ?_⟩
      · rw [horder]
        exact List.nodup_singleton τ
      · rw [horder]
        exact Nat.one_le_of_lt (by decide : 0 < WINDOW)
      · rw [hnext, horder]
        by_cases hσ : σ = τ <;> simp [hσ]
      · rw [hnext]
        intro hd
        split at hd
        · cases hd
          exact hpos
        · cases hd
      · rw [hr, restore, if_neg (by exact h1)]
        exact htick.symm
      · rw [horder]
        obtain ⟨front, hfront⟩ := List.getLast?_eq_some_iff.mp hl
        exact ⟨front, hfront.symm⟩
      · rw [horder] at hσ
        rw [hnext, if_pos (List.mem_singleton.mp hσ), List.mem_singleton.mp hσ, hc]

theorem length_stampAll (s : Stamper) (tss : List Int) :
    (s.stampAll tss).1.length = tss.length := by
  induction tss generalizing s with
  | nil => rfl
  | cons ts rest ih => simp [stampAll, ih]

/-- The run split at the cut. -/
theorem uninterrupted_eq (res : Resolution) (tss : List Int) (k : Nat) :
    uninterrupted res tss k
      = (((new res).stampAll (tss.take k)).2.stampAll (tss.drop k)).1 := by
  have hsplit := stampAll_append (new res) (tss.take k) (tss.drop k)
  rw [List.take_append_drop] at hsplit
  rw [uninterrupted, hsplit]
  by_cases hk : k ≤ tss.length
  · have hlen : ((new res).stampAll (tss.take k)).1.length = k := by
      rw [length_stampAll, List.length_take, Nat.min_eq_left hk]
    exact List.drop_left' hlen
  · have hdrop : tss.drop k = [] := List.drop_eq_nil_of_le (by omega)
    rw [hdrop]
    apply List.drop_eq_nil_of_le
    simp only [stampAll, List.append_nil, length_stampAll, List.length_take]
    omega

/-! ## When a replay is exact -/

/-- The ticks open after a sequence of source timestamps, oldest opening
first. -/
def openTicks (res : Resolution) (tss : List Int) : List Int :=
  slides WINDOW [] (tss.map (tickOf res.tickNs))

/-- No timestamp after the cut falls into a tick that is still among the open
ones at its turn but was opened before the last opening that precedes the
cut. At nanosecond resolution there are no ticks to reopen. -/
def ReplaySafe (res : Resolution) (tss : List Int) (k : Nat) : Prop :=
  res = .nanos ∨ ∀ pre ts post, tss.drop k = pre ++ ts :: post →
    tickOf res.tickNs ts ∈ openTicks res (tss.take k ++ pre) →
    tickOf res.tickNs ts ∈ slides WINDOW (openTicks res (tss.take k)).getLast?.toList
      (pre.map (tickOf res.tickNs))

/-- **A replay reproduces the first run exactly when no line after the cut
goes back to a tick the checkpoint does not carry.** -/
theorem replayed_eq_iff (res : Resolution) (tss : List Int) (k : Nat) :
    replayed res tss k = uninterrupted res tss k ↔ ReplaySafe res tss k := by
  rw [uninterrupted_eq, replayed, ReplaySafe]
  by_cases hres : res = .nanos
  · subst hres
    have hleft : ((new .nanos).stampAll (tss.take k)).2.tickNs = 1 := stampAll_tickNs _ _
    rw [stampAll_nanos (resume_tickNs .nanos _), stampAll_nanos hleft]
    simp
  · have h1 : res.tickNs ≠ 1 := by cases res <;> simp_all [Resolution.tickNs]
    have hwf := (Wf.new res).stampAll (tss.take k)
    have htick : ((new res).stampAll (tss.take k)).2.tickNs = res.tickNs :=
      stampAll_tickNs (new res) (tss.take k)
    have horder : ((new res).stampAll (tss.take k)).2.order = openTicks res (tss.take k) :=
      stampAll_order (Wf.new res) h1 (tss.take k)
    have hmain := (agree_resume hwf h1 htick).stampAll_iff (htick ▸ h1)
      (htick ▸ Resolution.tickNs_lt res) (tss.drop k)
    rw [hmain, resume_order hwf h1, htick, horder]
    simp only [hres, false_or, openTicks, List.map_append, slides_append]

/-- Three lines at millisecond resolution, the third stepping back into the
first line's millisecond: stopped before it, the agent stamps it with the first
line's timestamp, not with the one it got before. -/
theorem replay_not_exact :
    replayed .millis [1786280343206000000, 1786280343207000000, 1786280343206000000] 2
      ≠ uninterrupted .millis
          [1786280343206000000, 1786280343207000000, 1786280343206000000] 2 := by
  decide

end Stamper

end Tributary.Stamp
