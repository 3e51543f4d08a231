import Tributary.Stamp.Collision

/-!
# Range and order of the timestamps

What a stream may rely on when a fresh stamper numbers its lines: every answer
lies in the tick of its source timestamp, answers rise with the lines of a tick
as long as its counter stays in the window, ordered input gives strictly rising
answers, and a tick is refused only when all of its slots are gone.

All of it follows from one fact: while a tick stays open, its counter moves from
`c` to `c'` and exactly the slots between the two are given out.
-/

namespace Tributary.Stamp

open Lib

namespace Stamper

/-- The answer to the call for `ts` after the calls for `pre`. -/
def answer (res : Resolution) (pre : List Int) (ts : Int) : Except StampError Int :=
  (((new res).stampAll pre).2.stamp ts).1

/-- The ticks of a list of source timestamps. -/
def ticks (res : Resolution) (tss : List Int) : List Int := tss.map (tickOf res.tickNs)

@[simp] theorem ticks_append (res : Resolution) (xs ys : List Int) :
    ticks res (xs ++ ys) = ticks res xs ++ ticks res ys :=
  List.map_append

/-- The call for `ts` after the calls for `pre` opens the counter of its tick. -/
def Opens (res : Resolution) (pre : List Int) (ts : Int) : Prop :=
  tickOf res.tickNs ts ∉ slides WINDOW [] (ticks res pre)

instance (res : Resolution) (pre : List Int) (ts : Int) : Decidable (Opens res pre ts) :=
  inferInstanceAs (Decidable (_ ∉ _))

/-- The counters that the calls for `tss` open after the calls for `pre`. -/
def opened (res : Resolution) (pre tss : List Int) : List Int :=
  openings WINDOW (slides WINDOW [] (ticks res pre)) (ticks res tss)

/-- The timestamps of tick `τ` given out during a run. -/
def issuedIn (τ : Int) : Stamper → List Int → List Int
  | _, [] => []
  | s, ts :: rest =>
      (if tickOf s.tickNs ts = τ then issued [(s.stamp ts).1] else [])
        ++ issuedIn τ (s.stamp ts).2 rest

/-- The `n` consecutive timestamps from `start` on. -/
def slots (start : Int) (n : Nat) : List Int :=
  (List.range n).map fun i : Nat => start + i

/-- What a fresh stamper promises about the run `tss`. -/
structure Lawful (res : Resolution) (tss : List Int) : Prop where
  /-- an answer lies in the tick of its source timestamp -/
  inTick : ∀ pre ts post v, tss = pre ++ ts :: post → answer res pre ts = .ok v →
    ts - ts % res.tickNs ≤ v ∧ v < ts - ts % res.tickNs + res.tickNs
  /-- two calls on one tick, the first of which used the counter opened by the call
  for `t₀`, after which fewer than `WINDOW` counters were opened -/
  rises : ∀ pre t₁ mid t₂ post v₁ v₂, tss = pre ++ t₁ :: mid ++ t₂ :: post →
    tickOf res.tickNs t₁ = tickOf res.tickNs t₂ →
    ∀ a t₀ b, pre ++ [t₁] = a ++ t₀ :: b →
      tickOf res.tickNs t₀ = tickOf res.tickNs t₁ → Opens res a t₀ →
      (opened res (a ++ [t₀]) (b ++ mid)).length < WINDOW →
      answer res pre t₁ = .ok v₁ → answer res (pre ++ t₁ :: mid) t₂ = .ok v₂ → v₁ < v₂
  /-- ordered input, strictly rising output -/
  sorted : tss.Pairwise (· ≤ ·) → (issued ((new res).stampAll tss).1).Pairwise (· < ·)
  /-- a refusal comes after all slots of the tick were given out by the counter
  in use -/
  exhausted : ∀ pre ts post e, tss = pre ++ ts :: post → answer res pre ts = .error e →
    e = .exhausted res.tickNs ts ∧
      ∃ a t₀ b, pre = a ++ t₀ :: b ∧ tickOf res.tickNs t₀ = tickOf res.tickNs ts ∧
        Opens res a t₀ ∧
        issuedIn (tickOf res.tickNs ts) ((new res).stampAll a).2 (t₀ :: b)
          = slots (tickOf res.tickNs ts) res.tickNs.toNat
  /-- a refusal changes neither the stamper nor the answers after it -/
  quiet : ∀ pre ts post e, tss = pre ++ ts :: post → answer res pre ts = .error e →
    (new res).stampAll (pre ++ post)
      = (((new res).stampAll tss).1.eraseIdx pre.length, ((new res).stampAll tss).2)
  /-- no more than `WINDOW` counters are kept -/
  bounded : ∀ pre, pre <+: tss → ((new res).stampAll pre).2.order.length ≤ WINDOW ∧
    ∀ τ, (((new res).stampAll pre).2.next.get τ).isSome → τ ∈ ((new res).stampAll pre).2.order

/-! ## One call -/

theorem tickNs_ne_one {res : Resolution} (h : res ≠ .nanos) : res.tickNs ≠ 1 := by
  cases res <;> simp_all [Resolution.tickNs]

theorem NoOverflows.append {s : Stamper} {xs ys : List Int}
    (h : NoOverflows s (xs ++ ys)) : NoOverflows s xs ∧ NoOverflows (s.stampAll xs).2 ys := by
  induction xs generalizing s with
  | nil => exact ⟨trivial, h⟩
  | cons ts xs ih =>
      obtain ⟨hxs, hys⟩ := ih h.2
      exact ⟨⟨h.1, hxs⟩, hys⟩

/-- The three things a call can do, when nothing overflows. -/
theorem stamp_cases {s : Stamper} (hs : s.Wf) (h : s.tickNs ≠ 1) {ts : Int}
    (hov : NoOverflow s ts) :
    (tickOf s.tickNs ts ∉ s.order ∧ (s.stamp ts).1 = .ok (tickOf s.tickNs ts) ∧
      ∀ τ, (s.stamp ts).2.next.get τ
        = if τ ∈ slide WINDOW s.order (tickOf s.tickNs ts) then
            (if τ = tickOf s.tickNs ts then some 1 else s.next.get τ) else none) ∨
    (∃ c, s.next.get (tickOf s.tickNs ts) = some c ∧ 0 < c ∧ c < s.tickNs ∧
      (s.stamp ts).1 = .ok (tickOf s.tickNs ts + c) ∧
      ∀ τ, (s.stamp ts).2.next.get τ
        = if τ = tickOf s.tickNs ts then some (c + 1) else s.next.get τ) ∨
    (∃ c, s.next.get (tickOf s.tickNs ts) = some c ∧ s.tickNs ≤ c ∧
      s.stamp ts = (.error (.exhausted s.tickNs ts), s)) := by
  by_cases hm : tickOf s.tickNs ts ∈ s.order
  · obtain ⟨c, hc, hpos⟩ := hs.get_some hm
    by_cases hfree : c < s.tickNs
    · refine .inr (.inl ⟨c, hc, hpos, hfree, ?_, fun τ => ?_⟩)
      · rw [stamp_hit h hc hfree, wrap64_of_fits (hov.2 c hc hfree)]
      · rw [stamp_hit h hc hfree]
        exact Table.get_set _ _ _ _
    · exact .inr (.inr ⟨c, hc, Int.not_lt.mp hfree,
        stamp_exhausted h hc (Int.not_lt.mp hfree)⟩)
  · have htick : wrap64 (tickOf s.tickNs ts) = tickOf s.tickNs ts := by
      rw [tickOf_eq hov]
      exact wrap64_of_fits hov.1
    refine .inl ⟨hm, ?_, fun τ => ?_⟩
    · rw [stamp_miss h (hs.get_none hm), htick]
    · rw [stamp_miss h (hs.get_none hm), slide_fresh hm]
      exact get_after_miss hs hm τ

theorem slots_succ (start : Int) (n : Nat) :
    slots start (n + 1) = start :: slots (start + 1) n := by
  rw [slots, List.range_succ_eq_map, List.map_cons, List.map_map, slots]
  simp only [Nat.cast_zero, Int.add_zero, List.cons.injEq, true_and]
  apply List.map_congr_left
  intro i _
  simp only [Function.comp_apply, Nat.succ_eq_add_one]
  push_cast
  omega

theorem inTick_of_stamp {s : Stamper} (hs : s.Wf) (h : s.tickNs ≠ 1) (h0 : 0 < s.tickNs)
    {ts v : Int} (hov : NoOverflow s ts) (hv : (s.stamp ts).1 = .ok v) :
    tickOf s.tickNs ts ≤ v ∧ v < tickOf s.tickNs ts + s.tickNs := by
  rcases stamp_cases hs h hov with ⟨-, ho, -⟩ | ⟨c, -, hpos, hfree, ho, -⟩ | ⟨c, -, -, ho⟩
  · cases ho.symm.trans hv
    omega
  · cases ho.symm.trans hv
    omega
  · rw [ho] at hv
    cases hv

/-! ## A tick that stays open -/

/-- **While a tick stays open** its counter only grows, and the slots it passes
are given out in order. -/
theorem issuedIn_open {s : Stamper} {τ c : Int} {tss : List Int} (hs : s.Wf)
    (h : s.tickNs ≠ 1) (hc : s.next.get τ = some c) (hle : c ≤ s.tickNs)
    (hov : NoOverflows s tss)
    (hopen : ∀ p, p <+: tss → τ ∈ slides WINDOW s.order (p.map (tickOf s.tickNs))) :
    ∃ n : Nat, (s.stampAll tss).2.next.get τ = some (c + n) ∧ c + n ≤ s.tickNs ∧
      issuedIn τ s tss = slots (τ + c) n := by
  induction tss generalizing s c with
  | nil => exact ⟨0, by simpa [stampAll] using hc, by simpa using hle, rfl⟩
  | cons ts rest ih =>
      have hnext : ∀ p, p <+: rest →
          τ ∈ slides WINDOW (s.stamp ts).2.order (p.map (tickOf (s.stamp ts).2.tickNs)) := by
        intro p hp
        have hcons := hopen (ts :: p) (List.cons_prefix_cons.mpr ⟨rfl, hp⟩)
        simpa [stamp_order hs h] using hcons
      have hin : τ ∈ slide WINDOW s.order (tickOf s.tickNs ts) := by
        have hone := hopen [ts] (List.cons_prefix_cons.mpr ⟨rfl, List.nil_prefix⟩)
        simpa using hone
      -- another tick leaves the counter alone
      have hother : tickOf s.tickNs ts ≠ τ → (s.stamp ts).2.next.get τ = some c →
          ∃ n : Nat, ((s.stamp ts).2.stampAll rest).2.next.get τ = some (c + n) ∧
            c + n ≤ s.tickNs ∧
            issuedIn τ s (ts :: rest) = slots (τ + c) n := by
        intro hne hget
        obtain ⟨n, hn, hle', hiss⟩ := ih (hs.stamp ts) (by simpa using h) hget
          (by simpa using hle) hov.2 hnext
        refine ⟨n, hn, by simpa using hle', ?_⟩
        rw [issuedIn, if_neg hne, hiss, List.nil_append]
      rcases stamp_cases hs h hov.1 with ⟨hm, -, hget⟩ | ⟨d, hd, -, hfree, hout, hget⟩ |
        ⟨d, hd, hfull, hrefuse⟩
      · have hne : tickOf s.tickNs ts ≠ τ := by
          rintro rfl
          rw [hs.get_none hm] at hc
          cases hc
        refine hother hne ?_
        rw [hget, if_pos hin, if_neg (Ne.symm hne), hc]
      · by_cases hτ : tickOf s.tickNs ts = τ
        · subst hτ
          obtain rfl : d = c := Option.some.inj (hd.symm.trans hc)
          have hgrown : (s.stamp ts).2.next.get (tickOf s.tickNs ts) = some (d + 1) := by
            rw [hget, if_pos rfl]
          obtain ⟨n, hn, hle', hiss⟩ := ih (hs.stamp ts) (by simpa using h) hgrown
            (by rw [stamp_tickNs]; omega) hov.2 hnext
          rw [stamp_tickNs] at hle'
          refine ⟨n + 1, ?_, by push_cast; omega, ?_⟩
          · rw [show d + ((n + 1 : Nat) : Int) = d + 1 + n by push_cast; omega]
            exact hn
          · rw [issuedIn, if_pos rfl, hiss, hout, slots_succ, Int.add_assoc _ d 1]
            rfl
        · refine hother hτ ?_
          rw [hget, if_neg (Ne.symm hτ), hc]
      · by_cases hτ : tickOf s.tickNs ts = τ
        · obtain ⟨n, hn, hle', hiss⟩ := ih hs h hc hle (by simpa [hrefuse] using hov.2)
            (by simpa [hrefuse] using hnext)
          refine ⟨n, by simpa [stampAll, hrefuse] using hn, hle', ?_⟩
          rw [issuedIn, if_pos hτ, hrefuse, hiss]
          rfl
        · exact hother hτ (by rw [hrefuse]; exact hc)

/-- A call on an open tick answers with its counter or refuses. -/
theorem ok_of_counter {s : Stamper} (hs : s.Wf) (h : s.tickNs ≠ 1) {ts v c : Int}
    (hov : NoOverflow s ts) (hc : s.next.get (tickOf s.tickNs ts) = some c)
    (hv : (s.stamp ts).1 = .ok v) : v = tickOf s.tickNs ts + c := by
  rcases stamp_cases hs h hov with ⟨hm, -, -⟩ | ⟨d, hd, -, -, ho, -⟩ | ⟨d, -, -, ho⟩
  · rw [hs.get_none hm] at hc
    cases hc
  · cases Option.some.inj (hd.symm.trans hc)
    exact (Except.ok.inj (ho.symm.trans hv)).symm
  · rw [ho] at hv
    cases hv

/-- The counter after an answer stands right behind it. -/
theorem counter_after_ok {s : Stamper} (hs : s.Wf) (h : s.tickNs ≠ 1) {ts v : Int}
    (hov : NoOverflow s ts) (hv : (s.stamp ts).1 = .ok v) :
    (s.stamp ts).2.next.get (tickOf s.tickNs ts) = some (v - tickOf s.tickNs ts + 1) := by
  rcases stamp_cases hs h hov with ⟨-, ho, hget⟩ | ⟨c, -, -, -, ho, hget⟩ | ⟨c, -, -, ho⟩
  · cases ho.symm.trans hv
    rw [hget, if_pos (mem_slide_self (by decide) _ _), if_pos rfl, Int.sub_self, Int.zero_add]
  · cases ho.symm.trans hv
    rw [hget, if_pos rfl]
    congr 1
    omega
  · rw [ho] at hv
    cases hv

/-- The order after a run of a fresh stamper. -/
theorem new_stampAll_order {res : Resolution} (hres : res ≠ .nanos) (tss : List Int) :
    ((new res).stampAll tss).2.order = slides WINDOW [] (ticks res tss) :=
  stampAll_order (Wf.new res) (tickNs_ne_one hres) tss

/-- **In a tick, later is larger**, while fewer than `WINDOW` counters were opened
since its own. -/
theorem rises_of_few {res : Resolution} (hres : res ≠ .nanos) {pre mid post : List Int}
    {t₁ t₂ v₁ v₂ : Int} (hov : NoOverflows (new res) (pre ++ t₁ :: mid ++ t₂ :: post))
    (htick : tickOf res.tickNs t₁ = tickOf res.tickNs t₂) {a b : List Int} {t₀ : Int}
    (hsplit : pre ++ [t₁] = a ++ t₀ :: b) (htick₀ : tickOf res.tickNs t₀ = tickOf res.tickNs t₁)
    (hopens : Opens res a t₀) (hfew : (opened res (a ++ [t₀]) (b ++ mid)).length < WINDOW)
    (hv₁ : answer res pre t₁ = .ok v₁) (hv₂ : answer res (pre ++ t₁ :: mid) t₂ = .ok v₂) :
    v₁ < v₂ := by
  obtain ⟨hleft, hright⟩ := hov.append
  obtain ⟨hpre, hcall, hmid⟩ := hleft.append
  have hwf := (Wf.new res).stampAll pre
  have hn : ((new res).stampAll pre).2.tickNs = res.tickNs := stampAll_tickNs _ _
  have hns : ((new res).stampAll pre).2.tickNs ≠ 1 := hn ▸ tickNs_ne_one hres
  have hcounter := counter_after_ok hwf hns hcall hv₁
  have hrange := inTick_of_stamp hwf hns (hn ▸ tickNs_pos res) hcall hv₁
  rw [hn] at hcounter hrange
  have hopen : ∀ p, p <+: mid → tickOf res.tickNs t₁ ∈ slides WINDOW
      (((new res).stampAll pre).2.stamp t₁).2.order
      (p.map (tickOf (((new res).stampAll pre).2.stamp t₁).2.tickNs)) := by
    intro p hp
    have hwin : (((new res).stampAll pre).2.stamp t₁).2.order
        = slides WINDOW [] (ticks res (a ++ t₀ :: b)) := by
      rw [← hsplit, ← new_stampAll_order hres, stampAll_append]
      rfl
    have hfresh : tickOf res.tickNs t₁ ∉ slides WINDOW [] (ticks res a) := htick₀ ▸ hopens
    have hw : slides WINDOW [] (ticks res (a ++ [t₀]))
        = slide WINDOW (slides WINDOW [] (ticks res a)) (tickOf res.tickNs t₁) := by
      rw [ticks_append, slides_append, ← htick₀]
      rfl
    rw [stamp_tickNs, hn, hwin]
    have hlen : (openings WINDOW
        (slide WINDOW (slides WINDOW [] (ticks res a)) (tickOf res.tickNs t₁))
        (ticks res (b ++ p))).length < WINDOW := by
      obtain ⟨q, rfl⟩ := hp
      rw [opened, hw, ← List.append_assoc, ticks_append, openings_append,
        List.length_append] at hfew
      exact Nat.lt_of_le_of_lt (Nat.le_add_right _ _) hfew
    have hmem := mem_slides_of_few hfresh hlen
    rw [← hw, ← slides_append] at hmem
    rw [← slides_append]
    simpa [ticks] using hmem
  obtain ⟨n, hget, -, -⟩ := issuedIn_open (hwf.stamp t₁) (by simpa using hns) hcounter
    (by rw [stamp_tickNs, hn]; omega) hmid hopen
  have hlater : ((new res).stampAll (pre ++ t₁ :: mid)).2
      = ((((new res).stampAll pre).2.stamp t₁).2.stampAll mid).2 := by
    rw [stampAll_append]
    rfl
  have hn₂ : ((new res).stampAll (pre ++ t₁ :: mid)).2.tickNs = res.tickNs :=
    stampAll_tickNs _ _
  rw [← hlater, htick] at hget
  have heq := ok_of_counter ((Wf.new res).stampAll _) (hn₂ ▸ tickNs_ne_one hres) hright.1
    (by rw [hn₂]; exact hget) hv₂
  rw [hn₂] at heq
  omega

/-! ## Ordered input -/

/-- Two ticks are a whole tick apart. -/
theorem tick_gap {n τ σ : Int} (h0 : 0 < n) (hτ : τ % n = 0) (hσ : σ % n = 0) (hlt : τ < σ) :
    τ + n ≤ σ := by
  obtain ⟨k, rfl⟩ := Int.dvd_of_emod_eq_zero hτ
  obtain ⟨m, rfl⟩ := Int.dvd_of_emod_eq_zero hσ
  have hkm : k < m := Int.lt_of_mul_lt_mul_left hlt (Int.le_of_lt h0)
  have hmul := Int.mul_le_mul_of_nonneg_left (Int.add_one_le_iff.mpr hkm) (Int.le_of_lt h0)
  rw [Int.mul_add, Int.mul_one] at hmul
  exact hmul

theorem le_tick {n τ ts : Int} (h0 : 0 < n) (hτ : τ % n = 0) (hle : τ ≤ ts) :
    τ ≤ ts - ts % n := by
  by_contra hlt
  have hσ : (ts - ts % n) % n = 0 := by
    rw [Int.sub_emod, Int.emod_emod, Int.sub_self, Int.zero_emod]
  have hgap := tick_gap h0 hσ hτ (Int.not_le.mp hlt)
  have hrem := Int.emod_lt_of_pos ts h0
  omega

/-- Ordered input at or above the newest tick `τ` gives rising answers above what the
counter of `τ` has passed. -/
theorem rising_from {s : Stamper} {τ c : Int} {tss : List Int} (hs : s.Wf)
    (h : s.tickNs ≠ 1) (h0 : 0 < s.tickNs) (hc : s.next.get τ = some c) (hle : c ≤ s.tickNs)
    (hτ : τ % s.tickNs = 0) (hnewest : ∀ σ ∈ s.order, σ ≤ τ) (hov : NoOverflows s tss)
    (hsorted : tss.Pairwise (· ≤ ·)) (habove : ∀ ts ∈ tss, τ ≤ ts) :
    (∀ v ∈ issued (s.stampAll tss).1, τ + c ≤ v) ∧
      (issued (s.stampAll tss).1).Pairwise (· < ·) := by
  induction tss generalizing s τ c with
  | nil => simp [stampAll, issued]
  | cons ts rest ih =>
      obtain ⟨hfirst, hrest⟩ := List.pairwise_cons.mp hsorted
      have htick : τ ≤ tickOf s.tickNs ts := by
        rw [tickOf_eq hov.1]
        exact le_tick h0 hτ (habove ts (List.mem_cons_self ..))
      have hcut : issued (s.stampAll (ts :: rest)).1
          = issued [(s.stamp ts).1] ++ issued ((s.stamp ts).2.stampAll rest).1 :=
        List.filterMap_append (l := [(s.stamp ts).1])
      -- an answer `v` with the counter right behind it
      have hok : ∀ v, (s.stamp ts).1 = .ok v → τ + c ≤ v →
          (∀ σ ∈ (s.stamp ts).2.order, σ ≤ tickOf s.tickNs ts) →
          (∀ v ∈ issued (s.stampAll (ts :: rest)).1, τ + c ≤ v) ∧
            (issued (s.stampAll (ts :: rest)).1).Pairwise (· < ·) := by
        intro v hv hcv hnew
        have hrange := inTick_of_stamp hs h h0 hov.1 hv
        have hle' : tickOf s.tickNs ts ≤ ts := by
          rw [tickOf_eq hov.1]
          have hnonneg := Int.emod_nonneg ts (Int.ne_of_gt h0)
          omega
        obtain ⟨hlow, hpair⟩ := ih (hs.stamp ts) (by simpa using h) (by simpa using h0)
          (counter_after_ok hs h hov.1 hv) (by rw [stamp_tickNs]; omega)
          (by rw [stamp_tickNs]; exact tickOf_aligned hov.1) hnew hov.2 hrest
          (fun t ht => Int.le_trans hle' (hfirst t ht))
        rw [hcut, hv]
        refine ⟨fun u hu => ?_, List.pairwise_cons.mpr ⟨fun u hu => ?_, hpair⟩⟩
        · rcases List.mem_cons.mp hu with rfl | hu
          · exact hcv
          · have hu' := hlow u hu
            omega
        · have hu' := hlow u hu
          omega
      rcases stamp_cases hs h hov.1 with ⟨hm, hout, -⟩ | ⟨d, hd, -, hfree, hout, -⟩ |
        ⟨d, hd, hfull, hrefuse⟩
      · -- a new tick lies a whole tick above
        have hlt : τ < tickOf s.tickNs ts := by
          refine lt_of_le_of_ne htick fun he => ?_
          rw [he, hs.get_none hm] at hc
          cases hc
        have hgap := tick_gap h0 hτ (tickOf_aligned hov.1) hlt
        refine hok _ hout (by omega) fun σ hσ => ?_
        rw [stamp_order hs h] at hσ
        rcases mem_slide hσ with rfl | hσ
        · exact Int.le_refl _
        · exact Int.le_trans (hnewest σ hσ) htick
      · -- a known tick can only be the newest
        have hτe : tickOf s.tickNs ts = τ := by
          have hmem := (hs.counters _).mp (by rw [hd]; rfl)
          exact Int.le_antisymm (hnewest _ hmem) htick
        obtain rfl : d = c := by
          rw [hτe] at hd
          exact Option.some.inj (hd.symm.trans hc)
        refine hok _ hout (by omega) fun σ hσ => ?_
        rw [stamp_order hs h] at hσ
        rcases mem_slide hσ with rfl | hσ
        · exact Int.le_refl _
        · exact Int.le_trans (hnewest σ hσ) htick
      · rw [hcut, hrefuse]
        have hov' := hov.2
        rw [hrefuse] at hov'
        exact ih hs h h0 hc hle hτ hnewest hov' hrest
          fun t ht => habove t (List.mem_cons_of_mem _ ht)

/-- **Ordered input gives strictly rising timestamps.** -/
theorem issued_rising {res : Resolution} (hres : res ≠ .nanos) {tss : List Int}
    (hov : NoOverflows (new res) tss) (hsorted : tss.Pairwise (· ≤ ·)) :
    (issued ((new res).stampAll tss).1).Pairwise (· < ·) := by
  cases tss with
  | nil => exact List.Pairwise.nil
  | cons ts rest =>
      obtain ⟨hfirst, hrest⟩ := List.pairwise_cons.mp hsorted
      have hs := Wf.new res
      have h : (new res).tickNs ≠ 1 := tickNs_ne_one hres
      have h0 : 0 < (new res).tickNs := tickNs_pos res
      have hclosed : tickOf (new res).tickNs ts ∉ (new res).order := List.not_mem_nil
      -- the first line opens its tick
      have hout : ((new res).stamp ts).1 = .ok (tickOf (new res).tickNs ts) := by
        rcases stamp_cases hs h hov.1 with ⟨-, ho, -⟩ | ⟨c, hc, -⟩ | ⟨c, hc, -⟩
        · exact ho
        · cases hc
        · cases hc
      have hle : tickOf (new res).tickNs ts ≤ ts := by
        rw [tickOf_eq hov.1]
        have hnonneg := Int.emod_nonneg ts (Int.ne_of_gt h0)
        omega
      have hcounter := counter_after_ok hs h hov.1 hout
      obtain ⟨hlow, hpair⟩ := rising_from (hs.stamp ts) (by simpa using h) (by simpa using h0)
        hcounter (by rw [stamp_tickNs]; omega)
        (by rw [stamp_tickNs]; exact tickOf_aligned hov.1)
        (fun σ hσ => by
          rw [stamp_order hs h] at hσ
          rcases mem_slide hσ with rfl | hσ
          · exact Int.le_refl _
          · exact absurd hσ List.not_mem_nil)
        hov.2 hrest (fun t ht => Int.le_trans hle (hfirst t ht))
      have hcut : issued ((new res).stampAll (ts :: rest)).1
          = issued [((new res).stamp ts).1] ++ issued (((new res).stamp ts).2.stampAll rest).1 :=
        List.filterMap_append (l := [((new res).stamp ts).1])
      rw [hcut, hout]
      refine List.pairwise_cons.mpr ⟨fun u hu => ?_, hpair⟩
      have hu' := hlow u hu
      omega

/-! ## Refusals -/

theorem refused_of_error {s : Stamper} (hs : s.Wf) (h : s.tickNs ≠ 1) {ts : Int}
    (hov : NoOverflow s ts) {e : StampError} (he : (s.stamp ts).1 = .error e) :
    e = .exhausted s.tickNs ts ∧ (s.stamp ts).2 = s ∧
      ∃ c, s.next.get (tickOf s.tickNs ts) = some c ∧ s.tickNs ≤ c := by
  rcases stamp_cases hs h hov with ⟨-, ho, -⟩ | ⟨c, -, -, -, ho, -⟩ | ⟨c, hc, hfull, ho⟩
  · rw [ho] at he
    cases he
  · rw [ho] at he
    cases he
  · rw [ho] at he ⊢
    exact ⟨(Except.error.inj he).symm, rfl, c, hc, hfull⟩

/-- **A refused tick has no slot left**: since its counter was opened, all of its
slots were given out, in order. -/
theorem full_of_error {res : Resolution} (hres : res ≠ .nanos) {pre : List Int} {ts : Int}
    (hov : NoOverflows (new res) (pre ++ [ts])) {e : StampError}
    (he : answer res pre ts = .error e) :
    ∃ a t₀ b, pre = a ++ t₀ :: b ∧ tickOf res.tickNs t₀ = tickOf res.tickNs ts ∧
      Opens res a t₀ ∧
      issuedIn (tickOf res.tickNs ts) ((new res).stampAll a).2 (t₀ :: b)
        = slots (tickOf res.tickNs ts) res.tickNs.toNat := by
  have hwf := (Wf.new res).stampAll pre
  have hn : ((new res).stampAll pre).2.tickNs = res.tickNs := stampAll_tickNs _ _
  obtain ⟨-, -, c, hc, hfull⟩ := refused_of_error hwf (hn ▸ tickNs_ne_one hres)
    hov.append.2.1 he
  rw [hn] at hc hfull
  have hopen : tickOf res.tickNs ts ∈ slides WINDOW [] (ticks res pre) := by
    rw [← new_stampAll_order hres]
    exact (hwf.counters _).mp (by rw [hc]; rfl)
  obtain ⟨A, B, hAB, hclosed, hstay⟩ := exists_opening hopen
  obtain ⟨a, tb, rfl, rfl, htb⟩ := List.map_eq_append_iff.mp hAB
  obtain ⟨t₀, b, rfl, htick₀, rfl⟩ := List.map_eq_cons_iff.mp htb
  have hopens : Opens res a t₀ := by
    rw [Opens, htick₀]
    exact hclosed
  refine ⟨a, t₀, b, rfl, htick₀, hopens, ?_⟩
  -- from the opening on
  have hwa := (Wf.new res).stampAll a
  have hna : ((new res).stampAll a).2.tickNs = res.tickNs := stampAll_tickNs _ _
  have hnsa : ((new res).stampAll a).2.tickNs ≠ 1 := hna ▸ tickNs_ne_one hres
  have hov₀ := hov.append.1.append.2
  have hout : (((new res).stampAll a).2.stamp t₀).1 = .ok (tickOf res.tickNs ts) := by
    rcases stamp_cases hwa hnsa hov₀.1 with ⟨-, ho, -⟩ | ⟨d, hd, -⟩ | ⟨d, hd, -⟩
    · rw [ho, hna, htick₀]
    · refine absurd ((hwa.counters _).mp (by rw [hd]; rfl)) ?_
      rw [hna, htick₀, new_stampAll_order hres]
      exact hclosed
    · refine absurd ((hwa.counters _).mp (by rw [hd]; rfl)) ?_
      rw [hna, htick₀, new_stampAll_order hres]
      exact hclosed
  have hcounter := counter_after_ok hwa hnsa hov₀.1 hout
  rw [hna, htick₀, Int.sub_self, Int.zero_add] at hcounter
  have hstay' : ∀ p, p <+: b → tickOf res.tickNs ts ∈ slides WINDOW
      (((new res).stampAll a).2.stamp t₀).2.order
      (p.map (tickOf (((new res).stampAll a).2.stamp t₀).2.tickNs)) := by
    intro p hp
    have hmem := hstay _ (hp.map (tickOf res.tickNs))
    rw [slides_append, slides_cons] at hmem
    rw [stamp_tickNs, hna, stamp_order hwa hnsa, hna, htick₀, new_stampAll_order hres]
    exact hmem
  obtain ⟨n, hget, hle, hiss⟩ := issuedIn_open (hwa.stamp t₀) (by simpa using hnsa) hcounter
    (by rw [stamp_tickNs, hna]; exact tickNs_pos res) hov₀.2 hstay'
  have hlater : ((new res).stampAll (a ++ t₀ :: b)).2
      = ((((new res).stampAll a).2.stamp t₀).2.stampAll b).2 := by
    rw [stampAll_append]
    rfl
  rw [hlater] at hc
  obtain rfl : 1 + (n : Int) = c := Option.some.inj (hget.symm.trans hc)
  rw [stamp_tickNs, hna] at hle
  have htoNat : res.tickNs.toNat = n + 1 := by omega
  rw [issuedIn, hna, if_pos htick₀, hiss, hout, htoNat, slots_succ]
  rfl

/-- A refused call might as well not have been made. -/
theorem stampAll_skip_refused {s : Stamper} {pre post : List Int} {ts : Int}
    (hquiet : (((s.stampAll pre).2).stamp ts).2 = (s.stampAll pre).2) :
    s.stampAll (pre ++ post)
      = ((s.stampAll (pre ++ ts :: post)).1.eraseIdx pre.length,
          (s.stampAll (pre ++ ts :: post)).2) := by
  have hlen : ∀ (s : Stamper) (xs : List Int), (s.stampAll xs).1.length = xs.length := by
    intro s xs
    induction xs generalizing s with
    | nil => rfl
    | cons x xs ih => simp [stampAll, ih]
  rw [stampAll_append, stampAll_append, stampAll, hquiet]
  simp [List.eraseIdx_append_of_length_le, hlen]

/-! ## The law -/

/-- **Range and order.** A fresh stamper for a resolution coarser than a nanosecond is
lawful on every run that does not overflow. -/
theorem stampAll_lawful {res : Resolution} (hres : res ≠ .nanos) {tss : List Int}
    (hov : NoOverflows (new res) tss) : Lawful res tss where
  inTick := by
    rintro pre ts post v rfl hv
    have hn : ((new res).stampAll pre).2.tickNs = res.tickNs := stampAll_tickNs _ _
    have hcall := hov.append.2.1
    have hrange := inTick_of_stamp ((Wf.new res).stampAll pre) (hn ▸ tickNs_ne_one hres)
      (hn ▸ tickNs_pos res) hcall hv
    rwa [tickOf_eq hcall, hn] at hrange
  rises := by
    rintro pre t₁ mid t₂ post v₁ v₂ rfl htick a t₀ b hsplit htick₀ hopens hfew hv₁ hv₂
    exact rises_of_few hres hov htick hsplit htick₀ hopens hfew hv₁ hv₂
  sorted := issued_rising hres hov
  exhausted := by
    rintro pre ts post e rfl he
    have hov' : NoOverflows (new res) (pre ++ [ts]) := by
      rw [← List.singleton_append, ← List.append_assoc] at hov
      exact hov.append.1
    have hn : ((new res).stampAll pre).2.tickNs = res.tickNs := stampAll_tickNs _ _
    have hrefused := refused_of_error ((Wf.new res).stampAll pre) (hn ▸ tickNs_ne_one hres)
      hov'.append.2.1 he
    exact ⟨hn ▸ hrefused.1, full_of_error hres hov' he⟩
  quiet := by
    rintro pre ts post e rfl he
    have hn : ((new res).stampAll pre).2.tickNs = res.tickNs := stampAll_tickNs _ _
    have hrefused := refused_of_error ((Wf.new res).stampAll pre) (hn ▸ tickNs_ne_one hres)
      hov.append.2.1 he
    exact stampAll_skip_refused hrefused.2.1
  bounded := by
    rintro pre -
    have hwf := (Wf.new res).stampAll pre
    exact ⟨hwf.bounded, fun τ hτ => (hwf.counters τ).mp hτ⟩

theorem stampAll_lawful_step_back :
    Lawful .millis [-1, 1786280343206000000, 1786280343207000000, 1786280343206000000] :=
  stampAll_lawful (by decide) (by decide)

end Stamper

end Tributary.Stamp
