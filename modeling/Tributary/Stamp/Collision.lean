import Tributary.Stamp

/-!
# Collisions and the counter that should report them

A timestamp is issued twice exactly when a tick is opened twice. `outOfWindow`
counts the openings that lie below the oldest opening in the window, which is
not the same thing: the window forgets in the order of opening, so a forgotten
tick may lie above its oldest entry and be opened again without being counted.
-/

namespace Tributary.Stamp

open Lib

namespace Stamper

/-- The timestamps given out, in order. -/
def issued (answers : List (Except StampError Int)) : List Int :=
  answers.filterMap fun
    | .ok ts => some ts
    | .error _ => none

/-- The arithmetic of this call stays within `i64`. -/
def NoOverflow (s : Stamper) (ts : Int) : Prop :=
  FitsI64 (ts - ts % s.tickNs) ∧
    ∀ c ∈ s.next.get (tickOf s.tickNs ts), c < s.tickNs → FitsI64 (tickOf s.tickNs ts + c)

instance (s : Stamper) (ts : Int) : Decidable (NoOverflow s ts) :=
  inferInstanceAs (Decidable (_ ∧ ∀ c ∈ s.next.get (tickOf s.tickNs ts), _))

/-- No call of the run overflows. -/
def NoOverflows : Stamper → List Int → Prop
  | _, [] => True
  | s, ts :: rest => NoOverflow s ts ∧ NoOverflows (s.stamp ts).2 rest

instance decidableNoOverflows : ∀ (s : Stamper) (tss : List Int), Decidable (NoOverflows s tss)
  | _, [] => .isTrue trivial
  | s, ts :: rest =>
      have := decidableNoOverflows (s.stamp ts).2 rest
      inferInstanceAs (Decidable (NoOverflow s ts ∧ NoOverflows (s.stamp ts).2 rest))

/-- At its turn, the timestamp opens a tick that had been open before. -/
def Reopens (res : Resolution) (tss : List Int) : Prop :=
  ∃ pre ts post, tss = pre ++ ts :: post ∧
    tickOf res.tickNs ts ∉ slides WINDOW [] (pre.map (tickOf res.tickNs)) ∧
    tickOf res.tickNs ts ∈ pre.map (tickOf res.tickNs)

/-- At its turn, the timestamp opens a tick below the oldest opening still in
the window. -/
def OpensBelow (res : Resolution) (tss : List Int) : Prop :=
  ∃ pre ts post, tss = pre ++ ts :: post ∧
    tickOf res.tickNs ts ∉ slides WINDOW [] (pre.map (tickOf res.tickNs)) ∧
    Counted (slides WINDOW [] (pre.map (tickOf res.tickNs))) (tickOf res.tickNs ts)

/-! ## The counter -/

/-- One call counts at most one opening, and exactly the one below the oldest
entry of the window. -/
theorem stamp_outOfWindow {s : Stamper} (hs : s.Wf) (h : s.tickNs ≠ 1) (ts : Int) :
    (s.stamp ts).2.outOfWindow = s.outOfWindow
      + if tickOf s.tickNs ts ∉ s.order ∧ Counted s.order (tickOf s.tickNs ts) then 1 else 0 := by
  by_cases hm : tickOf s.tickNs ts ∈ s.order
  · obtain ⟨c, hc, -⟩ := hs.get_some hm
    by_cases hfree : c < s.tickNs
    · simp [stamp_hit h hc hfree, hm]
    · simp [stamp_exhausted h hc (Int.not_lt.mp hfree), hm]
  · simp [stamp_miss h (hs.get_none hm), hm]

/-- Over a run the counter stays put exactly when no opening was below the
oldest entry of the window. -/
theorem stampAll_outOfWindow {s : Stamper} (hs : s.Wf) (h : s.tickNs ≠ 1) (tss : List Int) :
    (s.stampAll tss).2.outOfWindow = s.outOfWindow
      ↔ ∀ pre ts post, tss = pre ++ ts :: post →
          tickOf s.tickNs ts ∉ slides WINDOW s.order (pre.map (tickOf s.tickNs)) →
          ¬ Counted (slides WINDOW s.order (pre.map (tickOf s.tickNs)))
            (tickOf s.tickNs ts) := by
  have hmono : ∀ (tss : List Int) (s : Stamper), s.Wf → s.tickNs ≠ 1 →
      s.outOfWindow ≤ (s.stampAll tss).2.outOfWindow := by
    intro tss
    induction tss with
    | nil => exact fun s _ _ => Nat.le_refl _
    | cons ts rest ih =>
        intro s hs h
        have hrest := ih (s.stamp ts).2 (hs.stamp ts) (by simpa using h)
        rw [stamp_outOfWindow hs h] at hrest
        exact Nat.le_trans (Nat.le_add_right _ _) hrest
  induction tss generalizing s with
  | nil => simp [stampAll]
  | cons t rest ih =>
      have h' : (s.stamp t).2.tickNs ≠ 1 := by simpa using h
      have hle := hmono rest (s.stamp t).2 (hs.stamp t) h'
      have hrest := ih (hs.stamp t) h'
      simp only [stamp_tickNs, stamp_order hs h] at hrest
      have hone := stamp_outOfWindow hs h t
      show ((s.stamp t).2.stampAll rest).2.outOfWindow = s.outOfWindow ↔ _
      by_cases hc : tickOf s.tickNs t ∉ s.order ∧ Counted s.order (tickOf s.tickNs t)
      · rw [if_pos hc] at hone
        constructor
        · intro he
          omega
        · intro hall
          exact absurd hc.2 (hall [] t rest rfl hc.1)
      · rw [if_neg hc, Nat.add_zero] at hone
        rw [hone] at hrest
        refine hrest.trans ?_
        constructor
        · intro hall pre ts post hsplit
          cases pre with
          | nil =>
              obtain ⟨rfl, rfl⟩ := List.cons.inj hsplit
              exact fun hn hcount => hc ⟨hn, hcount⟩
          | cons p pre =>
              obtain ⟨rfl, rfl⟩ := List.cons.inj hsplit
              exact hall pre ts post rfl
        · intro hall pre ts post hsplit
          exact hall (t :: pre) ts post (by rw [hsplit]; rfl)

/-! ## What has been issued -/

/-- A run seen from its answers: `seen` are the ticks stamped so far, `out` the
timestamps given out. Every tick seen was opened once, which gave out the tick
itself. -/
structure Seen (s : Stamper) (seen out : List Int) : Prop where
  wf : s.Wf
  known : ∀ τ ∈ s.order, τ ∈ seen
  aligned : ∀ τ ∈ seen, τ % s.tickNs = 0
  opened : ∀ τ ∈ seen, τ ∈ out

/-- Everything given out is a slot below the counter of its tick. This is what
a tick opened a second time breaks. -/
def Slotted (s : Stamper) (seen out : List Int) : Prop :=
  ∀ v ∈ out, ∃ τ ∈ seen, ∃ q, v = τ + q ∧ 0 ≤ q ∧ q < s.tickNs ∧
    ∀ c, s.next.get τ = some c → q < c

theorem Seen.start (res : Resolution) : Seen (new res) [] [] where
  wf := Wf.new res
  known := by simp [new]
  aligned := by simp
  opened := by simp

theorem nodup_snoc {l : List Int} {v : Int} (h : l.Nodup) (hv : v ∉ l) :
    (l ++ [v]).Nodup := by
  rw [← List.concat_eq_append]
  exact (List.nodup_concat l v).mpr ⟨hv, h⟩

/-- Two slots are equal only if tick and sequence are. -/
theorem slot_inj {n τ σ q p : Int} (hτ : τ % n = 0) (hσ : σ % n = 0)
    (hq : 0 ≤ q ∧ q < n) (hp : 0 ≤ p ∧ p < n) (h : τ + q = σ + p) : τ = σ ∧ q = p := by
  have hmod : (τ + q) % n = (σ + p) % n := by rw [h]
  rw [Int.add_emod, Int.add_emod σ, hτ, hσ, Int.zero_add, Int.zero_add, Int.emod_emod,
    Int.emod_emod, Int.emod_eq_of_lt hq.1 hq.2, Int.emod_eq_of_lt hp.1 hp.2] at hmod
  omega

theorem tickOf_eq {s : Stamper} {ts : Int} (h : NoOverflow s ts) :
    tickOf s.tickNs ts = ts - ts % s.tickNs :=
  wrap64_of_fits h.1

theorem tickOf_aligned {s : Stamper} {ts : Int} (h : NoOverflow s ts) :
    tickOf s.tickNs ts % s.tickNs = 0 := by
  rw [tickOf_eq h, Int.sub_emod, Int.emod_emod, Int.sub_self, Int.zero_emod]

/-- An opening gives out the tick itself. -/
theorem issued_miss {s : Stamper} {ts : Int} (h : s.tickNs ≠ 1) (hov : NoOverflow s ts)
    (hn : s.next.get (tickOf s.tickNs ts) = none) :
    issued [(s.stamp ts).1] = [tickOf s.tickNs ts] := by
  have htick : wrap64 (tickOf s.tickNs ts) = tickOf s.tickNs ts := by
    rw [tickOf_eq hov]
    exact wrap64_of_fits hov.1
  simp [stamp_miss h hn, htick, issued]

theorem Seen.step {s : Stamper} {seen out : List Int} (hi : Seen s seen out) {ts : Int}
    (h : s.tickNs ≠ 1) (hov : NoOverflow s ts) :
    Seen (s.stamp ts).2 (seen ++ [tickOf s.tickNs ts])
      (out ++ issued [(s.stamp ts).1]) where
  wf := hi.wf.stamp ts
  known := by
    intro τ hτ
    rw [stamp_order hi.wf h] at hτ
    rcases mem_slide hτ with rfl | hτ
    · simp
    · exact List.mem_append_left _ (hi.known τ hτ)
  aligned := by
    intro τ hτ
    rw [stamp_tickNs]
    rcases List.mem_append.mp hτ with hτ | hτ
    · exact hi.aligned τ hτ
    · exact List.mem_singleton.mp hτ ▸ tickOf_aligned hov
  opened := by
    intro τ hτ
    by_cases hm : tickOf s.tickNs ts ∈ s.order
    · apply List.mem_append_left
      rcases List.mem_append.mp hτ with hτ | hτ
      · exact hi.opened τ hτ
      · exact hi.opened τ (List.mem_singleton.mp hτ ▸ hi.known _ hm)
    · rw [issued_miss h hov (hi.wf.get_none hm)]
      rcases List.mem_append.mp hτ with hτ | hτ
      · exact List.mem_append_left _ (hi.opened τ hτ)
      · exact List.mem_append_right _ hτ

/-- A hit gives out a slot that was not given out before. -/
theorem Seen.hit {s : Stamper} {seen out : List Int} (hi : Seen s seen out)
    (hsl : Slotted s seen out) {ts : Int} (h : s.tickNs ≠ 1) (hov : NoOverflow s ts)
    (hm : tickOf s.tickNs ts ∈ s.order) :
    Slotted (s.stamp ts).2 (seen ++ [tickOf s.tickNs ts]) (out ++ issued [(s.stamp ts).1]) ∧
      (out.Nodup → (out ++ issued [(s.stamp ts).1]).Nodup) := by
  obtain ⟨c, hc, hpos⟩ := hi.wf.get_some hm
  by_cases hfree : c < s.tickNs
  · rw [stamp_hit h hc hfree, wrap64_of_fits (hov.2 c hc hfree)]
    have hfresh : tickOf s.tickNs ts + c ∉ out := by
      intro hout
      obtain ⟨σ, hσ, q, heq, hq0, hqn, hlt⟩ := hsl _ hout
      obtain ⟨rfl, rfl⟩ := slot_inj (tickOf_aligned hov) (hi.aligned σ hσ)
        ⟨by omega, hfree⟩ ⟨hq0, hqn⟩ heq
      exact absurd (hlt c hc) (Int.lt_irrefl c)
    refine ⟨fun v hv => ?_, fun hnd => nodup_snoc hnd hfresh⟩
    rcases List.mem_append.mp hv with hv | hv
    · obtain ⟨τ, hτ, q, heq, hq0, hqn, hlt⟩ := hsl v hv
      refine ⟨τ, List.mem_append_left _ hτ, q, heq, hq0, hqn, fun d hd => ?_⟩
      rw [Table.get_set] at hd
      split at hd
      · rename_i hτe
        cases hd
        have hqc := hlt c (hτe ▸ hc)
        omega
      · exact hlt d hd
    · have hv' : v = tickOf s.tickNs ts + c := by simpa [issued] using hv
      refine ⟨tickOf s.tickNs ts, by simp, c, hv', by omega, hfree, fun d hd => ?_⟩
      rw [Table.get_set_self] at hd
      cases hd
      omega
  · rw [stamp_exhausted h hc (Int.not_lt.mp hfree)]
    refine ⟨fun v hv => ?_, fun hnd => by simpa [issued] using hnd⟩
    obtain ⟨τ, hτ, rest⟩ := hsl v (by simpa [issued] using hv)
    exact ⟨τ, List.mem_append_left _ hτ, rest⟩

/-- The first opening of a tick gives out a new timestamp. -/
theorem Seen.miss {s : Stamper} {seen out : List Int} (hi : Seen s seen out)
    (hsl : Slotted s seen out) {ts : Int} (h : s.tickNs ≠ 1) (h0 : 0 < s.tickNs)
    (hov : NoOverflow s ts) (hm : tickOf s.tickNs ts ∉ seen) :
    Slotted (s.stamp ts).2 (seen ++ [tickOf s.tickNs ts]) (out ++ issued [(s.stamp ts).1]) ∧
      (out.Nodup → (out ++ issued [(s.stamp ts).1]).Nodup) := by
  have hclosed : tickOf s.tickNs ts ∉ s.order := fun ho => hm (hi.known _ ho)
  have hfresh : tickOf s.tickNs ts ∉ out := by
    intro hout
    obtain ⟨σ, hσ, q, heq, hq0, hqn, -⟩ := hsl _ hout
    have hslot := slot_inj (q := 0) (tickOf_aligned hov) (hi.aligned σ hσ)
      ⟨Int.le_refl 0, h0⟩ ⟨hq0, hqn⟩ (by rw [Int.add_zero]; exact heq)
    exact hm (hslot.1 ▸ hσ)
  rw [issued_miss h hov (hi.wf.get_none hclosed)]
  refine ⟨fun v hv => ?_, fun hnd => nodup_snoc hnd hfresh⟩
  rw [stamp_miss h (hi.wf.get_none hclosed)]
  rcases List.mem_append.mp hv with hv | hv
  · obtain ⟨τ, hτ, q, heq, hq0, hqn, hlt⟩ := hsl v hv
    refine ⟨τ, List.mem_append_left _ hτ, q, heq, hq0, hqn, fun d hd => ?_⟩
    have hne : τ ≠ tickOf s.tickNs ts := fun he => hm (he ▸ hτ)
    simp only [get_after_miss hi.wf hclosed, if_neg hne] at hd
    split at hd
    · exact hlt d hd
    · cases hd
  · refine ⟨tickOf s.tickNs ts, by simp, 0, by simpa using hv, Int.le_refl 0, h0,
      fun d hd => ?_⟩
    simp only [get_after_miss hi.wf hclosed, if_pos trivial] at hd
    split at hd
    · cases hd
      exact Int.zero_lt_one
    · cases hd

/-- **A run that opens no tick twice gives out distinct timestamps**, and one
that does does not. -/
theorem Seen.nodup_iff {s : Stamper} {seen out : List Int} (hi : Seen s seen out)
    (hsl : Slotted s seen out) (hnd : out.Nodup) (h : s.tickNs ≠ 1) (h0 : 0 < s.tickNs)
    {tss : List Int} (hov : NoOverflows s tss) :
    (out ++ issued (s.stampAll tss).1).Nodup
      ↔ ∀ pre ts post, tss = pre ++ ts :: post →
          tickOf s.tickNs ts ∉ slides WINDOW s.order (pre.map (tickOf s.tickNs)) →
          tickOf s.tickNs ts ∉ seen ++ pre.map (tickOf s.tickNs) := by
  induction tss generalizing s seen out with
  | nil => simpa [stampAll, issued] using hnd
  | cons t rest ih =>
      have hsplit : out ++ issued (s.stampAll (t :: rest)).1
          = (out ++ issued [(s.stamp t).1]) ++ issued ((s.stamp t).2.stampAll rest).1 := by
        rw [List.append_assoc]
        congr 1
        exact List.filterMap_append (l := [(s.stamp t).1])
      rw [hsplit]
      by_cases hre : tickOf s.tickNs t ∉ s.order ∧ tickOf s.tickNs t ∈ seen
      · -- opened again: the tick itself is given out a second time
        constructor
        · intro hall
          have hout := hi.opened _ hre.2
          rw [issued_miss h hov.1 (hi.wf.get_none hre.1)] at hall
          have hpre := (List.nodup_append.mp hall).1
          exact absurd rfl ((List.nodup_append.mp hpre).2.2 _ hout _ (List.mem_singleton_self _))
        · intro hall
          exact absurd (List.mem_append_left _ hre.2) (hall [] t rest rfl hre.1)
      · have hone : Slotted (s.stamp t).2 (seen ++ [tickOf s.tickNs t])
              (out ++ issued [(s.stamp t).1]) ∧
            (out.Nodup → (out ++ issued [(s.stamp t).1]).Nodup) := by
          by_cases hm : tickOf s.tickNs t ∈ s.order
          · exact hi.hit hsl h hov.1 hm
          · exact hi.miss hsl h h0 hov.1 fun hs => hre ⟨hm, hs⟩
        have hrest := ih (hi.step h hov.1) hone.1 (hone.2 hnd) (by simpa using h)
          (by simpa using h0) hov.2
        simp only [stamp_tickNs, stamp_order hi.wf h] at hrest
        refine hrest.trans ?_
        constructor
        · intro hall pre ts post hcut
          cases pre with
          | nil =>
              obtain ⟨rfl, rfl⟩ := List.cons.inj hcut
              exact fun hn hs => hre ⟨hn, by simpa using hs⟩
          | cons p pre =>
              obtain ⟨rfl, rfl⟩ := List.cons.inj hcut
              simpa using hall pre ts post rfl
        · intro hall pre ts post hcut
          simpa using hall (t :: pre) ts post (by rw [hcut]; rfl)

/-! ## When no collision is silent -/

/-- A run during which nothing is counted gave out each timestamp once. -/
def NoSilentCollision (res : Resolution) (tss : List Int) : Prop :=
  ((new res).stampAll tss).2.outOfWindow = 0 → (issued ((new res).stampAll tss).1).Nodup

theorem tickNs_pos (res : Resolution) : 0 < res.tickNs := by
  cases res <;> decide

/-- **No collision is silent exactly when** no tick is opened a second time, or
some tick is opened below the oldest opening of the window. -/
theorem noSilentCollision_iff {res : Resolution} (hres : res ≠ .nanos) {tss : List Int}
    (hov : NoOverflows (new res) tss) :
    NoSilentCollision res tss ↔ ¬ Reopens res tss ∨ OpensBelow res tss := by
  have h1 : (new res).tickNs ≠ 1 := by cases res <;> simp_all [new, Resolution.tickNs]
  have hnd := (Seen.start res).nodup_iff (by simp [Slotted]) List.nodup_nil h1
    (tickNs_pos res) hov
  simp only [List.nil_append] at hnd
  have hcount := stampAll_outOfWindow (Wf.new res) h1 tss
  have hreopens : (issued ((new res).stampAll tss).1).Nodup ↔ ¬ Reopens res tss := by
    rw [hnd]
    constructor
    · rintro hall ⟨pre, ts, post, hsplit, hn, hm⟩
      exact hall pre ts post hsplit hn hm
    · intro hno pre ts post hsplit hn hm
      exact hno ⟨pre, ts, post, hsplit, hn, hm⟩
  have hbelow : ((new res).stampAll tss).2.outOfWindow = 0 ↔ ¬ OpensBelow res tss := by
    refine hcount.trans ?_
    constructor
    · rintro hall ⟨pre, ts, post, hsplit, hn, hc⟩
      exact hall pre ts post hsplit hn hc
    · intro hno pre ts post hsplit hn hc
      exact hno ⟨pre, ts, post, hsplit, hn, hc⟩
  rw [NoSilentCollision, hreopens, hbelow]
  exact or_iff_not_imp_right.symm

theorem noSilentCollision_tick_twice :
    NoSilentCollision .millis [1786280343206000000, 1786280343206000000]
      ↔ ¬ Reopens .millis [1786280343206000000, 1786280343206000000]
        ∨ OpensBelow .millis [1786280343206000000, 1786280343206000000] :=
  noSilentCollision_iff (by decide) (by decide)

/-- Millisecond ticks 10, 1000, then 11 to 72: the window is full. Ticks 1001
and 1002 evict 10 and 1000, and leave 11 as the oldest opening, so that coming
back to tick 1000 opens it again above that. -/
def backAboveOldest : List Int :=
  ([10, 1000] ++ (List.range 62).map (fun i => 11 + (i : Int)) ++ [1001, 1002, 1000]).map
    (· * 1000000)

/-- The first and the last line in tick 1000 get the same timestamp, and
nothing is counted. -/
theorem collision_can_be_silent :
    NoOverflows (new .millis) backAboveOldest ∧ ¬ NoSilentCollision .millis backAboveOldest := by
  unfold NoSilentCollision
  decide +kernel

end Stamper

end Tributary.Stamp
