import Mathlib.Data.List.TakeWhile
import Tributary.Drain

/-!
# The delivery law of the drains

A segment is retired exactly when each of its lines is acknowledged or recorded
in the dead-letter file, no rejected line disappears, and a segment with bad
lines does not hold up the ones behind it. The file tail's drain obeys it. The
receiver's and the collector's retire a segment without recording what the
server rejected; journald's and winlog's never retire such a segment at all.
-/

namespace Tributary

open Queue Ship

namespace Drainer

variable {β ℓ : Type}

/-! ## The law -/

/-- The segment has a line the server rejects. -/
def hasBad (d : Drainer β ℓ) (bad : ℓ → Bool) (body : β) : Bool :=
  (d.split body).any (faulty d.blank bad)

/-- A segment is retired exactly when each of its lines was acknowledged or
recorded. -/
def Settles (d : Drainer β ℓ) (live : List (Nat × β)) (s : Spool β ℓ) : Prop :=
  ∀ x ∈ live, d.records x.2 ≠ [] →
    (name x ∈ s.popped
      ↔ ∀ l ∈ d.records x.2, (name x, l) ∈ s.acked ∨ (name x, l) ∈ s.deadLetter)

/-- A line the server rejects is recorded, or still in a queued segment. -/
def Keeps (d : Drainer β ℓ) (bad : ℓ → Bool) (live : List (Nat × β)) (s : Spool β ℓ) : Prop :=
  ∀ x ∈ live, ∀ l ∈ d.records x.2, bad l = true →
    (name x, l) ∈ s.deadLetter ∨ name x ∈ s.queue.segments

/-- Nothing is queued behind a segment with a bad line. -/
def Unblocked (d : Drainer β ℓ) (bad : ℓ → Bool) (live : List (Nat × β)) (s : Spool β ℓ) : Prop :=
  ∀ x ∈ live, d.hasBad bad x.2 = true →
    ∀ pre post, s.queue.segments = pre ++ name x :: post → post = []

/-- **The delivery law**: after any passes against a server that rejects what
is bad, segments are settled and rejected lines kept; and after a further pass
in which the server answers, no bad segment has others waiting behind it. -/
def DeliveryLaw (d : Drainer β ℓ) (bad : ℓ → Bool) (q : Queue) (dir : Dir β)
    (live : List (Nat × β)) : Prop :=
  ∀ scheds : List (List (Answer ℓ)),
    (∀ sched ∈ scheds, ∀ a ∈ sched, Honest d.blank bad a) →
    d.Settles live (d.passes (start q dir) scheds)
      ∧ d.Keeps bad live (d.passes (start q dir) scheds)
      ∧ ∀ sched : List (Answer ℓ), (∀ a ∈ sched, Up d.blank bad a) →
          (live.map fun x => cost [d.split x.2]).sum ≤ sched.length →
          d.Unblocked bad live (d.pass (d.passes (start q dir) scheds) sched)

variable {d : Drainer β ℓ} {bad : ℓ → Bool} {s : Spool β ℓ} {live left : List (Nat × β)}
  {x : Nat × β}
/-! ## The invariant -/

/-- The segments of `live` are retired from the front; what is filed under each
is what the server's answers account for. -/
structure Inv (d : Drainer β ℓ) (bad : ℓ → Bool) (live : List (Nat × β)) (s : Spool β ℓ)
    (gone left : List (Nat × β)) : Prop where
  split : live = gone ++ left
  increasing : live.Pairwise fun x y => x.1 < y.1
  stored : Stored d.size s.dir s.queue left
  popped : s.popped = gone.map name
  ackedFine : ∀ x ∈ live, ∀ l, (name x, l) ∈ s.acked → faulty d.blank bad l = false
  ackedWhole : ∀ x ∈ left, d.hasBad bad x.2 = false → d.records x.2 ≠ [] →
    ∀ l, (name x, l) ∉ s.acked
  deadGone : ∀ x ∈ left, ∀ l, (name x, l) ∉ s.deadLetter
  deadRule : d.poison ≠ .quarantine → s.deadLetter = []
  goneFine : ∀ x ∈ gone, ∀ l ∈ d.records x.2, bad l = false → (name x, l) ∈ s.acked
  goneDead : d.poison = .quarantine →
    ∀ x ∈ gone, ∀ l ∈ d.records x.2, bad l = true → (name x, l) ∈ s.deadLetter
  goneClean : d.poison = .keep → ∀ x ∈ gone, d.hasBad bad x.2 = false

theorem Inv.start {q : Queue} {dir : Dir β} (h : Stored d.size dir q live) :
    Inv d bad live (start q dir) [] live where
  split := rfl
  increasing := h.increasing
  stored := h
  popped := rfl
  ackedFine := by simp [Drainer.start]
  ackedWhole := by simp [Drainer.start]
  deadGone := by simp [Drainer.start]
  deadRule := fun _ => rfl
  goneFine := by simp
  goneDead := by simp
  goneClean := by simp

theorem hasBad_iff {body : β} :
    d.hasBad bad body = true ↔ ∃ l ∈ d.records body, bad l = true := by
  simp [hasBad, mem_records, faulty, and_assoc]

theorem faulty_iff {l : ℓ} :
    faulty d.blank bad l = true ↔ d.blank l = false ∧ bad l = true := by
  simp [faulty]

section step

variable {gone : List (Nat × β)} {sched : List (Answer ℓ)}

/-- A number stands for one segment. -/
theorem Inv.eq_of_name (h : Inv d bad live s gone left) {y z : Nat × β} (hy : y ∈ live)
    (hz : z ∈ live) (hyz : name y = name z) : y = z := by
  have hnd : (live.map (·.1)).Nodup := by
    rw [List.Nodup, List.pairwise_map]
    exact h.increasing.imp fun hlt => Nat.ne_of_lt hlt
  exact List.inj_on_of_nodup_map hnd hy hz (segmentName_inj hyz)

/-- The front segment's number is not that of a later one. -/
theorem Inv.front_ne (h : Inv d bad live s gone (x :: left)) {y : Nat × β}
    (hy : y ∈ left) : y.1 ≠ x.1 :=
  (Nat.ne_of_lt ((List.pairwise_cons.mp h.stored.increasing).1 y hy)).symm

/-- Noting accepted lines of the front segment keeps everything but the claim
that a clean segment has none. -/
theorem Inv.noted_fine (h : Inv d bad live s gone (x :: left))
    (hs : ∀ a ∈ sched, Honest d.blank bad a) :
    ∀ y ∈ live, ∀ l,
      (name y, l) ∈ (noted s x (sendLines d.blank sched [d.split x.2]).acked).acked →
      faulty d.blank bad l = false := by
  intro y hy l hl
  rcases mem_noted.mp hl with hl | ⟨-, hl⟩
  · exact h.ackedFine y hy l hl
  · exact (mem_acked hs hl).2

/-- A turn that stops keeps the invariant. -/
theorem Inv.stopped (h : Inv d bad live s gone (x :: left))
    (hs : ∀ a ∈ sched, Honest d.blank bad a)
    (hout : ∀ poison, (sendLines d.blank sched [d.split x.2]).outcome = .shipped poison →
      d.poison = .keep ∧ poison ≠ []) :
    Inv d bad live (noted s x (sendLines d.blank sched [d.split x.2]).acked) gone
      (x :: left) :=
  { h with
    ackedFine := h.noted_fine hs
    ackedWhole := by
      intro y hy hclean hrec l hl
      rcases mem_noted.mp hl with hl | ⟨hseq, hl⟩
      · exact h.ackedWhole y hy hclean hrec l hl
      · -- the front segment itself: without bad lines it goes whole or not at all
        rcases List.mem_cons.mp hy with rfl | hy
        · have hb : (d.split y.2).all d.blank = false := by
            obtain ⟨r, hr⟩ := List.exists_mem_of_ne_nil _ hrec
            obtain ⟨hm, hne⟩ := mem_records.mp hr
            rw [List.all_eq_false]
            exact ⟨r, hm, by simpa using hne⟩
          rcases sendLines_clean hs hclean hb with ⟨hnone, -⟩ | ⟨-, hshipped⟩
          · simp [hnone] at hl
          · exact (hout [] hshipped).2 rfl
        · exact h.front_ne hy hseq
    goneFine := fun y hy l hl hg => mem_noted.mpr (.inl (h.goneFine y hy l hl hg)) }

/-- A turn that retires its segment keeps the invariant. -/
theorem Inv.retired (h : Inv d bad live s gone (x :: left))
    (hs : ∀ a ∈ sched, Honest d.blank bad a) {poison : List ℓ}
    (hout : (sendLines d.blank sched [d.split x.2]).outcome = .shipped poison)
    (hkeep : d.poison = .keep → poison = []) :
    Inv d bad live
      (d.retired (noted s x (sendLines d.blank sched [d.split x.2]).acked) x poison)
      (gone ++ [x]) left := by
  obtain ⟨hpoison, hacked⟩ := sendLines_shipped hs hout
  simp only [List.flatten_cons, List.flatten_nil, List.append_nil] at hpoison hacked
  refine ⟨by rw [h.split]; simp, h.increasing, h.stored.pop_front.2, ?_, h.noted_fine hs,
    ?_, ?_, ?_, ?_, ?_, ?_⟩
  · simp [Drainer.retired, noted, h.popped]
  · intro y hy hclean hrec l hl
    rcases mem_noted.mp hl with hl | ⟨hseq, -⟩
    · exact h.ackedWhole y (List.mem_cons_of_mem _ hy) hclean hrec l hl
    · exact h.front_ne hy hseq
  · intro y hy l hl
    simp only [Drainer.retired, noted] at hl
    split at hl
    · rcases List.mem_append.mp hl with hl | hl
      · exact h.deadGone y (List.mem_cons_of_mem _ hy) l hl
      · obtain ⟨l', -, he⟩ := List.mem_map.mp hl
        exact h.front_ne hy (segmentName_inj (Prod.mk.inj he).1).symm
    · exact h.deadGone y (List.mem_cons_of_mem _ hy) l hl
  · intro hrule
    simp only [Drainer.retired, noted, if_neg hrule]
    exact h.deadRule hrule
  · intro y hy l hl hgood
    rcases List.mem_append.mp hy with hy | hy
    · exact mem_noted.mpr (.inl (h.goneFine y hy l hl hgood))
    · rw [List.mem_singleton.mp hy] at hl ⊢
      obtain ⟨hm, hne⟩ := mem_records.mp hl
      have hin : l ∈ (sendLines d.blank sched [d.split x.2]).acked.filter
          fun l => !d.blank l := by
        rw [hacked, List.mem_filter]
        exact ⟨hm, by simp [hne, hgood]⟩
      exact mem_noted.mpr (.inr ⟨rfl, (List.mem_filter.mp hin).1⟩)
  · intro hrule y hy l hl hbad
    simp only [Drainer.retired, noted, if_pos hrule]
    rcases List.mem_append.mp hy with hy | hy
    · exact List.mem_append_left _ (h.goneDead hrule y hy l hl hbad)
    · rw [List.mem_singleton.mp hy] at hl ⊢
      obtain ⟨hm, hne⟩ := mem_records.mp hl
      refine List.mem_append_right _ (List.mem_map.mpr ⟨l, ?_, rfl⟩)
      rw [hpoison, List.mem_filter]
      exact ⟨hm, faulty_iff.mpr ⟨hne, hbad⟩⟩
  · intro hrule y hy
    rcases List.mem_append.mp hy with hy | hy
    · exact h.goneClean hrule y hy
    · rw [List.mem_singleton.mp hy]
      rw [hkeep hrule] at hpoison
      rw [hasBad, List.any_eq_false]
      exact List.filter_eq_nil_iff.mp hpoison.symm

/-- **One turn keeps the invariant**, and goes on only if it retired a
segment. -/
theorem Inv.attempt (h : Inv d bad live s gone left)
    (hs : ∀ a ∈ sched, Honest d.blank bad a) :
    ∃ gone' left', Inv d bad live (d.attempt s sched).1 gone' left'
      ∧ (∀ a ∈ (d.attempt s sched).2.2, a ∈ sched)
      ∧ ((d.attempt s sched).2.1 = true → left'.length + 1 = left.length) := by
  cases left with
  | nil =>
      rw [attempt_nil h.stored]
      exact ⟨gone, [], h, fun _ ha => ha, by simp⟩
  | cons x left =>
      have hrest := (sendLines_rest d.blank sched [d.split x.2]).subset
      rcases attempt_cons h.stored sched (d := d) with ⟨poison, hout, hkeep, he⟩ | ⟨hout, he⟩
      · rw [he]
        exact ⟨_, left, h.retired hs hout hkeep, hrest, fun _ => rfl⟩
      · rw [he]
        exact ⟨gone, _, h.stopped hs hout, hrest, by simp⟩

/-! ## Passes -/

theorem Inv.turns (n : Nat) (h : Inv d bad live s gone left)
    (hs : ∀ a ∈ sched, Honest d.blank bad a) :
    ∃ gone' left', Inv d bad live (d.turns n s sched) gone' left' := by
  induction n generalizing s gone left sched with
  | zero => exact ⟨gone, left, h⟩
  | succ n ih =>
      obtain ⟨gone', left', hinv, hsched, -⟩ := h.attempt hs (d := d)
      rw [Drainer.turns]
      split
      · rename_i t sched' he
        rw [he] at hinv hsched
        exact ih hinv fun a ha => hs a (hsched a ha)
      · rename_i t sched' he
        rw [he] at hinv
        exact ⟨gone', left', hinv⟩

theorem Inv.passes {scheds : List (List (Answer ℓ))} (h : Inv d bad live s gone left)
    (hs : ∀ sched ∈ scheds, ∀ a ∈ sched, Honest d.blank bad a) :
    ∃ gone' left', Inv d bad live (d.passes s scheds) gone' left' := by
  induction scheds generalizing s gone left with
  | nil => exact ⟨gone, left, h⟩
  | cons sched scheds ih =>
      obtain ⟨gone', left', hinv⟩ := h.turns s.queue.segments.length (hs sched (by simp))
      exact ih hinv fun sched hm => hs sched (by simp [hm])

/-! ## What the invariant gives -/

/-- A segment still queued is not a retired one. -/
theorem Inv.not_popped (h : Inv d bad live s gone left) {x : Nat × β} (hx : x ∈ left) :
    name x ∉ s.popped := by
  rw [h.popped]
  intro hm
  obtain ⟨y, hy, hn⟩ := List.mem_map.mp hm
  have hinc := h.increasing
  rw [h.split] at hinc
  have := (List.pairwise_append.mp hinc).2.2 y hy x hx
  exact absurd (segmentName_inj hn) (Nat.ne_of_lt this)

/-- A segment still queued has a line that is neither acknowledged nor
recorded. -/
theorem Inv.unsettled (h : Inv d bad live s gone left) {x : Nat × β} (hx : x ∈ left)
    (hrec : d.records x.2 ≠ []) :
    ∃ l ∈ d.records x.2, (name x, l) ∉ s.acked ∧ (name x, l) ∉ s.deadLetter := by
  have hlive : x ∈ live := by
    rw [h.split]
    exact List.mem_append_right _ hx
  cases hb : d.hasBad bad x.2 with
  | true =>
      obtain ⟨l, hl, hbad⟩ := hasBad_iff.mp hb
      refine ⟨l, hl, fun hm => ?_, h.deadGone x hx l⟩
      have := h.ackedFine x hlive l hm
      rw [faulty_iff.mpr ⟨(mem_records.mp hl).2, hbad⟩] at this
      cases this
  | false =>
      obtain ⟨l, hl⟩ := List.exists_mem_of_ne_nil _ hrec
      exact ⟨l, hl, h.ackedWhole x hx hb hrec l, h.deadGone x hx l⟩

/-- Segments are settled if what is retired without a dead letter was clean. -/
theorem Inv.settles (h : Inv d bad live s gone left)
    (hclean : d.poison = .discard → ∀ x ∈ live, d.hasBad bad x.2 = false) :
    d.Settles live s := by
  intro x hx hrec
  have hsplit := hx
  rw [h.split] at hsplit
  rcases List.mem_append.mp hsplit with hg | hl
  · refine ⟨fun _ l hl => ?_, fun _ => by rw [h.popped]; exact List.mem_map.mpr ⟨x, hg, rfl⟩⟩
    cases hbad : bad l with
    | false => exact .inl (h.goneFine x hg l hl hbad)
    | true =>
        have hhas : d.hasBad bad x.2 = true := hasBad_iff.mpr ⟨l, hl, hbad⟩
        cases hrule : d.poison with
        | quarantine => exact .inr (h.goneDead hrule x hg l hl hbad)
        | discard => simp [hclean hrule x hx] at hhas
        | keep => simp [h.goneClean hrule x hg] at hhas
  · refine ⟨fun hp => absurd hp (h.not_popped hl), fun hall => ?_⟩
    obtain ⟨l, hm, ha, hd⟩ := h.unsettled hl hrec
    exact ((hall l hm).elim ha hd).elim

theorem Inv.keeps (h : Inv d bad live s gone left)
    (hclean : d.poison = .discard → ∀ x ∈ live, d.hasBad bad x.2 = false) :
    d.Keeps bad live s := by
  intro x hx l hl hbad
  have hsplit := hx
  rw [h.split] at hsplit
  rcases List.mem_append.mp hsplit with hg | hq
  · have hhas : d.hasBad bad x.2 = true := hasBad_iff.mpr ⟨l, hl, hbad⟩
    cases hrule : d.poison with
    | quarantine => exact .inl (h.goneDead hrule x hg l hl hbad)
    | discard => simp [hclean hrule x hx] at hhas
    | keep => simp [h.goneClean hrule x hg] at hhas
  · rw [h.stored.segments]
    exact .inr (List.mem_map.mpr ⟨x, hq, rfl⟩)

/-! ## A pass in which the server answers -/

/-- A segment that does not stop the drain when the server answers. -/
def goes (d : Drainer β ℓ) (bad : ℓ → Bool) (x : Nat × β) : Bool :=
  d.poison != .keep || !d.hasBad bad x.2

/-- Such a pass retires everything up to the first segment the drain keeps. -/
theorem Inv.turns_up {n : Nat} (h : Inv d bad live s gone left)
    (hs : ∀ a ∈ sched, Up d.blank bad a) (hn : left.length ≤ n)
    (hlen : (left.map fun x => cost [d.split x.2]).sum ≤ sched.length) :
    ∃ gone', Inv d bad live (d.turns n s sched) gone'
      (left.dropWhile (d.goes bad)) := by
  induction n generalizing s gone left sched with
  | zero =>
      cases List.length_eq_zero_iff.mp (Nat.le_zero.mp hn)
      exact ⟨gone, h⟩
  | succ n ih =>
      cases left with
      | nil =>
          rw [Drainer.turns, attempt_nil h.stored]
          exact ⟨gone, h⟩
      | cons x left =>
          have hhonest : ∀ a ∈ sched, Honest d.blank bad a := fun a ha => (hs a ha).toHonest
          rw [List.map_cons, List.sum_cons] at hlen
          obtain ⟨⟨poison, hshipped⟩, hleft⟩ := @sendLines_up _ _ _ _ hs [d.split x.2] (by omega)
          have hpoison := (sendLines_shipped hhonest hshipped).1
          simp only [List.flatten_cons, List.flatten_nil, List.append_nil] at hpoison
          have hnil : poison = [] ↔ d.hasBad bad x.2 = false := by
            rw [hpoison, List.filter_eq_nil_iff, hasBad, List.any_eq_false]
          rw [Drainer.turns]
          rcases attempt_cons h.stored sched (d := d) with ⟨p, hout, hkeep, he⟩ | ⟨hout, he⟩
          · cases hshipped.symm.trans hout
            rw [he]
            have hgo : d.goes bad x = true := by
              by_cases hrule : d.poison = .keep
              · simp [goes, hnil.mp (hkeep hrule)]
              · simp [goes, hrule]
            rw [List.dropWhile_cons_of_pos hgo]
            have hsuf := sendLines_rest d.blank sched [d.split x.2]
            exact ih (h.retired hhonest hout hkeep)
              (fun a ha => hs a (hsuf.subset ha)) (by simpa using hn) (by omega)
          · obtain ⟨hrule, hne⟩ := hout poison hshipped
            rw [he]
            have hstop : ¬ d.goes bad x = true := by
              simpa [goes, hrule] using fun hb => hne (hnil.mpr hb)
            rw [List.dropWhile_cons_of_neg hstop]
            exact ⟨gone, h.stopped hhonest hout⟩

theorem Inv.pass_up (h : Inv d bad live s gone left)
    (hs : ∀ a ∈ sched, Up d.blank bad a)
    (hlen : (live.map fun x => cost [d.split x.2]).sum ≤ sched.length) :
    ∃ gone', Inv d bad live (d.pass s sched) gone'
      (left.dropWhile (d.goes bad)) := by
  refine h.turns_up hs ?_ ?_
  · rw [h.stored.segments, List.length_map]
  · rw [h.split, List.map_append, List.sum_append] at hlen
    omega

end step

/-! ## Who obeys the law -/

/-- No segment has a bad line. -/
def Clean (d : Drainer β ℓ) (bad : ℓ → Bool) (live : List (Nat × β)) : Prop :=
  ∀ x ∈ live, d.hasBad bad x.2 = false

/-- A segment with a bad line is the last. -/
def BadLast (d : Drainer β ℓ) (bad : ℓ → Bool) (live : List (Nat × β)) : Prop :=
  ∀ pre x post, live = pre ++ x :: post → d.hasBad bad x.2 = true → post = []

/-- An answer of a server that is up. -/
def upAnswer (d : Drainer β ℓ) (bad : ℓ → Bool) : Answer ℓ := fun chunk =>
  .status (if chunk.any (faulty d.blank bad) then 400 else 204) none ""

theorem upAnswer_up (d : Drainer β ℓ) (bad : ℓ → Bool) : Up d.blank bad (d.upAnswer bad) where
  accepts := by
    intro chunk h
    cases hc : chunk.any (faulty d.blank bad) with
    | false => rfl
    | true => simp [upAnswer, result, hc] at h
  rejects := by
    intro chunk m h
    cases hc : chunk.any (faulty d.blank bad) with
    | false => simp [upAnswer, result, hc] at h
    | true => rfl
  judges := by
    intro chunk
    cases hc : chunk.any (faulty d.blank bad) with
    | false => simp [upAnswer, result, hc]
    | true => simp [upAnswer, result, hc]

section law

variable {q : Queue} {dir : Dir β}

/-- A queue whose front part can go and whose rest is unblocked obeys. -/
theorem law_of (h : Stored d.size dir q live)
    (hclean : d.poison = .discard → d.Clean bad live)
    (hlast : d.poison = .keep → d.BadLast bad live) : d.DeliveryLaw bad q dir live := by
  intro scheds hs
  obtain ⟨gone, left, hinv⟩ := (show Inv d bad live (start q dir) [] live from .start h).passes hs
  refine ⟨hinv.settles hclean, hinv.keeps hclean, fun sched hup hlen => ?_⟩
  obtain ⟨gone', hend⟩ := hinv.pass_up hup hlen
  intro x hx hbad pre post hseg
  rw [hend.stored.segments] at hseg
  obtain ⟨pre', tail', hsplit, -, htail⟩ := List.map_eq_append_iff.mp hseg
  obtain ⟨y, post', rfl, hy, rfl⟩ := List.map_eq_cons_iff.mp htail
  have hylive : y ∈ live := by
    rw [hend.split, hsplit]
    simp
  cases hend.eq_of_name hylive hx hy
  by_cases hrule : d.poison = .keep
  · have hlive : live = (gone' ++ pre') ++ x :: post' := by
      rw [List.append_assoc, ← hsplit, ← hend.split]
    rw [hlast hrule _ _ _ hlive hbad, List.map_nil]
  · have hnone : left.dropWhile (d.goes bad) = [] := by
      rw [List.dropWhile_eq_nil_iff]
      simp [goes, hrule]
    simp [hnone] at hsplit

/-- The answers of a server that stays up for one pass. -/
def upSched (d : Drainer β ℓ) (bad : ℓ → Bool) (live : List (Nat × β)) : List (Answer ℓ) :=
  List.replicate (live.map fun x => cost [d.split x.2]).sum (d.upAnswer bad)

variable (d bad) in
theorem pass_upSched (h : Stored d.size dir q live) :
    ∃ gone', Inv d bad live (d.pass (start q dir) (d.upSched bad live)) gone'
      (live.dropWhile (d.goes bad)) := by
  refine (Inv.start h).pass_up (fun a ha => ?_) (by rw [upSched, List.length_replicate])
  rw [List.eq_of_mem_replicate ha]
  exact d.upAnswer_up bad

/-- A drain that discards loses the first line the server rejects. -/
theorem DeliveryLaw.clean (h : Stored d.size dir q live) (hrule : d.poison = .discard)
    (hlaw : d.DeliveryLaw bad q dir live) : d.Clean bad live := by
  obtain ⟨gone', hinv⟩ := pass_upSched d bad h
  have hall : live.dropWhile (d.goes bad) = [] := by
    rw [List.dropWhile_eq_nil_iff]
    simp [goes, hrule]
  rw [hall] at hinv
  have hgone : live = gone' := by rw [hinv.split, List.append_nil]
  have hsettles := (hlaw [d.upSched bad live] (by
    intro sched hm a ha
    rw [List.mem_singleton.mp hm] at ha
    rw [List.eq_of_mem_replicate ha]
    exact (d.upAnswer_up bad).toHonest)).1
  intro x hx
  by_contra hb
  obtain ⟨l, hl, hbad⟩ := hasBad_iff.mp (eq_true_of_ne_false hb)
  have hpopped : name x ∈ (d.pass (start q dir) (d.upSched bad live)).popped := by
    rw [hinv.popped, ← hgone]
    exact List.mem_map.mpr ⟨x, hx, rfl⟩
  rcases (hsettles x hx (List.ne_nil_of_mem hl)).mp hpopped l hl with ha | hd
  · have hfine := hinv.ackedFine x hx l ha
    rw [faulty_iff.mpr ⟨(mem_records.mp hl).2, hbad⟩] at hfine
    cases hfine
  · rw [show (d.passes (start q dir) [d.upSched bad live]).deadLetter = []
      from hinv.deadRule (by simp [hrule])] at hd
    cases hd

/-- A drain that keeps stops at its first segment with a bad line. -/
theorem DeliveryLaw.badLast (h : Stored d.size dir q live) (hrule : d.poison = .keep)
    (hlaw : d.DeliveryLaw bad q dir live) : d.BadLast bad live := by
  intro pre x post hlive hbad
  obtain ⟨gone', hinv⟩ := pass_upSched d bad h
  have hstop : d.goes bad x = false := by simp [goes, hrule, hbad]
  have hleft : live.dropWhile (d.goes bad) = pre.dropWhile (d.goes bad) ++ x :: post := by
    rw [hlive, List.dropWhile_append]
    split
    · rename_i hnil
      rw [List.isEmpty_iff.mp hnil, List.dropWhile_cons_of_neg (by simp [hstop]), List.nil_append]
    · rfl
  have hblock := (hlaw [] (by simp)).2.2 (d.upSched bad live)
    (fun a ha => by rw [List.eq_of_mem_replicate ha]; exact d.upAnswer_up bad)
    (by rw [upSched, List.length_replicate])
  have hx : x ∈ live := by simp [hlive]
  have hseg : (d.pass (d.passes (start q dir) []) (d.upSched bad live)).queue.segments
      = (pre.dropWhile (d.goes bad)).map name ++ name x :: post.map name := by
    rw [← List.map_cons, ← List.map_append, ← hleft]
    exact hinv.stored.segments
  exact List.map_eq_nil_iff.mp (hblock x hx hbad _ _ hseg)

end law

/-- **Who obeys the delivery law**, for any queue content and any judgement of
lines: the file tail always; the receiver and the collector on segments without
bad lines; journald and winlog when only the last segment has any. -/
theorem drains_obey_iff (bad : Text → Bool) {q : Queue} {dir : Dir Text}
    {live : List (Nat × Text)} (h : Stored Text.utf8Len dir q live) :
    drainQueue.DeliveryLaw bad q dir live
      ∧ (Otlp.drain.DeliveryLaw bad q dir live ↔ Otlp.drain.Clean bad live)
      ∧ (Metrics.drain.DeliveryLaw bad q dir live ↔ Metrics.drain.Clean bad live)
      ∧ (Journald.drain.DeliveryLaw bad q dir live ↔ Journald.drain.BadLast bad live)
      ∧ (Winlog.drain.DeliveryLaw bad q dir live ↔ Winlog.drain.BadLast bad live) := by
  have hdiscard : ∀ split, (ofText split .discard).DeliveryLaw bad q dir live
      ↔ (ofText split .discard).Clean bad live := fun split =>
    ⟨fun hlaw => hlaw.clean h rfl, fun hc => law_of h (fun _ => hc) (by simp [ofText])⟩
  have hkeep : ∀ split, (ofText split .keep).DeliveryLaw bad q dir live
      ↔ (ofText split .keep).BadLast bad live := fun split =>
    ⟨fun hlaw => hlaw.badLast h rfl, fun hl => law_of h (by simp [ofText]) (fun _ => hl)⟩
  exact ⟨law_of h (by simp [drainQueue, ofText]) (by simp [drainQueue, ofText]),
    hdiscard _, hdiscard _, hkeep _, hkeep _⟩

/-! ## A queue with a bad line in front -/

/-- Two segments of one line each, the first of which the server rejects. -/
def badThenGood : List (Nat × Text) := [(0, ['x', '\n']), (1, ['y', '\n'])]

def badThenGoodDir : Dir Text := badThenGood.map entry

def badThenGoodQueue : Queue :=
  { maxBytes := 100, bytes := 4, nextSeq := 2, segments := badThenGood.map name, full := false,
    spilledTotal := 2, drainedTotal := 0 }

def startsWithX (l : Text) : Bool := l.head? == some 'x'

theorem badThenGood_stored : Stored Text.utf8Len badThenGoodDir badThenGoodQueue badThenGood :=
  ⟨⟨by decide, by decide⟩, by decide, by decide, rfl, rfl⟩

theorem drains_obey_badThenGood :
    drainQueue.DeliveryLaw startsWithX badThenGoodQueue badThenGoodDir badThenGood
      ∧ (Otlp.drain.DeliveryLaw startsWithX badThenGoodQueue badThenGoodDir badThenGood
        ↔ Otlp.drain.Clean startsWithX badThenGood) :=
  have h := drains_obey_iff startsWithX badThenGood_stored
  ⟨h.1, h.2.1⟩

/-- Every drain but the file tail's breaks the law here. -/
theorem drains_disobey :
    ¬ Otlp.drain.DeliveryLaw startsWithX badThenGoodQueue badThenGoodDir badThenGood
      ∧ ¬ Metrics.drain.DeliveryLaw startsWithX badThenGoodQueue badThenGoodDir badThenGood
      ∧ ¬ Journald.drain.DeliveryLaw startsWithX badThenGoodQueue badThenGoodDir badThenGood
      ∧ ¬ Winlog.drain.DeliveryLaw startsWithX badThenGoodQueue badThenGoodDir badThenGood := by
  have hclean : ∀ split, (ofText split .discard).hasBad startsWithX ['x', '\n'] = true →
      ¬ (ofText split .discard).DeliveryLaw startsWithX badThenGoodQueue badThenGoodDir
        badThenGood := by
    intro split hb hlaw
    have := hlaw.clean badThenGood_stored rfl (0, ['x', '\n']) (by simp [badThenGood])
    rw [hb] at this
    cases this
  have hlast : ∀ split, (ofText split .keep).hasBad startsWithX ['x', '\n'] = true →
      ¬ (ofText split .keep).DeliveryLaw startsWithX badThenGoodQueue badThenGoodDir
        badThenGood := by
    intro split hb hlaw
    have := hlaw.badLast badThenGood_stored rfl [] (0, ['x', '\n']) _ rfl hb
    cases this
  exact ⟨hclean _ (by decide), hclean _ (by decide), hlast _ (by decide), hlast _ (by decide)⟩

end Drainer

end Tributary
