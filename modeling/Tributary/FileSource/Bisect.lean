import Mathlib.Data.Finset.Filter
import Tributary.FileSource.Steps
import Tributary.Ship.Requests

/-!
# Bisection isolates the bad lines

A server that judges lines, and is busy finitely often, gets every good line once
and in order, and the bad ones are handed back.
-/

namespace Tributary

namespace Ship

variable {ℓ : Type} (blank : ℓ → Bool)

/-- An answer that ends the call: neither a rejection nor a request to wait. -/
def fatal : ShipError → Bool
  | .rejected _ | .backpressure _ => false
  | .unauthorized _ | .wrongNode _ | .transport _ => true

variable {blank}

/-- **A request that fails for another reason fails the call.** -/
theorem failed_of_fatal {sched : List (Answer ℓ)} {stack : List (List ℓ)} {r : List ℓ × Reply}
    {e : ShipError} (hr : r ∈ requests blank sched stack) (he : result r.2 = .error e)
    (hfatal : fatal e = true) : (sendLines blank sched stack).outcome = .failed e := by
  induction sched generalizing stack with
  | nil => cases hr
  | cons answer sched ih =>
      cases htop : toPost blank stack with
      | nil => simp [requests, htop] at hr
      | cons chunk rest =>
          simp only [requests, htop, List.mem_cons] at hr
          simp only [sendLines, htop]
          rcases hr with rfl | hr
          · cases e with
            | rejected m => cases hfatal
            | backpressure d => cases hfatal
            | unauthorized m => simp [he]
            | wrongNode m => simp [he]
            | transport m => simp [he]
          · cases hres : result (answer chunk) with
            | ok u =>
                rw [hres] at hr
                exact ih hr
            | error e' =>
                rw [hres] at hr
                cases e' with
                | rejected m =>
                    by_cases hone : chunk.length = 1
                    · simp only [if_pos hone] at hr ⊢
                      simp [Sent.poisoned, ih hr]
                    · simp only [if_neg hone] at hr ⊢
                      exact ih hr
                | backpressure d => exact ih hr
                | unauthorized m => cases hr
                | wrongNode m => cases hr
                | transport m => cases hr

/-! ## A server that judges lines -/

variable (bad : ℓ → Bool)

/-- The server rejects the chunk exactly if it holds a bad line. -/
def Judged (chunk : List ℓ) (reply : Reply) : Prop :=
  if chunk.any bad then ∃ retryAfter text, reply = .status 400 retryAfter text
  else ∃ retryAfter text, reply = .status 204 retryAfter text

/-- Come back later. -/
def Busy (reply : Reply) : Prop := ∃ retryAfter text, reply = .status 429 retryAfter text

/-- A server, by the number of the request: it judges every chunk, apart from
finitely many requests it may be too busy for. -/
structure Judges (server : Nat → Answer ℓ) (busy : Finset Nat) : Prop where
  judged : ∀ i chunk, Judged bad chunk (server i chunk) ∨ i ∈ busy ∧ Busy (server i chunk)

/-- The answers to the requests from number `i` on, `n` of them. -/
def answersFrom (server : Nat → Answer ℓ) (i n : Nat) : List (Answer ℓ) :=
  (List.range' i n).map server

variable {bad} {server : Nat → Answer ℓ} {busy : Finset Nat}

/-- How many requests may still be answered with "later". -/
def pauses (busy : Finset Nat) (i : Nat) : Nat := (busy.filter (i ≤ ·)).card

theorem pauses_succ (busy : Finset Nat) (i : Nat) : pauses busy (i + 1) ≤ pauses busy i :=
  Finset.card_le_card fun j hj => by
    obtain ⟨hmem, hle⟩ := Finset.mem_filter.mp hj
    exact Finset.mem_filter.mpr ⟨hmem, Nat.le_of_succ_le hle⟩

theorem pauses_of_mem {i : Nat} (h : i ∈ busy) : pauses busy (i + 1) < pauses busy i := by
  refine Finset.card_lt_card ⟨fun j hj => ?_, fun hsub => ?_⟩
  · obtain ⟨hmem, hle⟩ := Finset.mem_filter.mp hj
    exact Finset.mem_filter.mpr ⟨hmem, Nat.le_of_succ_le hle⟩
  · have hi := (Finset.mem_filter.mp (hsub (Finset.mem_filter.mpr ⟨h, Nat.le_refl i⟩))).2
    omega

/-- What a finished call has done with the lines of its stack. -/
structure Exact (bad : ℓ → Bool) (lines : List ℓ) (sent : Sent ℓ)
    (reqs : List (List ℓ × Reply)) : Prop where
  poison : sent.outcome = .shipped (lines.filter bad)
  good : accepted reqs = lines.filter fun l => !bad l

theorem result_busy {reply : Reply} (h : Busy reply) :
    ∃ d, result reply = .error (.backpressure d) := by
  obtain ⟨retryAfter, text, rfl⟩ := h
  exact ⟨_, rfl⟩

theorem result_judged {chunk : List ℓ} {reply : Reply} (h : Judged bad chunk reply) :
    (chunk.any bad = true ∧ ∃ m, result reply = .error (.rejected m))
      ∨ chunk.any bad = false ∧ result reply = .ok () := by
  unfold Judged at h
  split at h
  · rename_i hbad
    obtain ⟨retryAfter, text, rfl⟩ := h
    exact .inl ⟨hbad, text, rfl⟩
  · rename_i hgood
    obtain ⟨retryAfter, text, rfl⟩ := h
    exact .inr ⟨eq_false_of_ne_true hgood, rfl⟩

/-! ## One answer -/

section step

variable {stack rest : List (List ℓ)} {chunk : List ℓ} {answer : Answer ℓ}
  {sched : List (Answer ℓ)} {lines : List ℓ} (htop : toPost blank stack = chunk :: rest)

include htop

theorem exact_ok (hres : result (answer chunk) = .ok ()) (hgood : chunk.any bad = false)
    (h : Exact bad lines (sendLines blank sched rest) (requests blank sched rest)) :
    Exact bad (chunk ++ lines) (sendLines blank (answer :: sched) stack)
      (requests blank (answer :: sched) stack) := by
  have hclean : ∀ l ∈ chunk, bad l = false := by simpa using List.any_eq_false.mp hgood
  refine ⟨?_, ?_⟩
  · have hnone : chunk.filter bad = [] :=
      List.filter_eq_nil_iff.mpr fun l hl => by simp [hclean l hl]
    simp only [sendLines, htop, hres, Sent.accepted]
    rw [h.poison, List.filter_append, hnone, List.nil_append]
  · have hall : (chunk.filter fun l => !bad l) = chunk :=
      List.filter_eq_self.mpr fun l hl => by simp [hclean l hl]
    simp only [requests, htop]
    rw [accepted_cons_ok hres, hres, h.good, List.filter_append, hall]

theorem exact_single {l : ℓ} {m : String} (hone : chunk = [l])
    (hres : result (answer chunk) = .error (.rejected m)) (hbad : bad l = true)
    (h : Exact bad lines (sendLines blank sched rest) (requests blank sched rest)) :
    Exact bad (chunk ++ lines) (sendLines blank (answer :: sched) stack)
      (requests blank (answer :: sched) stack) := by
  subst hone
  refine ⟨?_, ?_⟩
  · simp [sendLines, htop, hres, Sent.poisoned, h.poison, hbad]
  · simp only [requests, htop]
    rw [accepted_cons_error hres, hres]
    simp [h.good, hbad]

end step

/-- The chunk is sent again, in halves or as it is. -/
theorem exact_again {stack rest next : List (List ℓ)} {chunk : List ℓ} {answer : Answer ℓ}
    {sched : List (Answer ℓ)} (hflat : next.flatten = chunk ++ rest.flatten)
    (hsend : sendLines blank (answer :: sched) stack = sendLines blank sched next)
    (hreqs : requests blank (answer :: sched) stack
      = (chunk, answer chunk) :: requests blank sched next)
    {e : ShipError} (hres : result (answer chunk) = .error e)
    (h : Exact bad next.flatten (sendLines blank sched next) (requests blank sched next)) :
    Exact bad (chunk ++ rest.flatten) (sendLines blank (answer :: sched) stack)
      (requests blank (answer :: sched) stack) := by
  rw [← hflat, hsend, hreqs]
  exact ⟨h.poison, by rw [accepted_cons_error hres, h.good]⟩

/-- **The halving is exact**: with answers enough for every half and every pause,
the call ends, hands back the bad lines in order, and each good line was accepted
once, in order. -/
theorem exact_of_judges (hserver : Judges bad server busy) (n i : Nat) (stack : List (List ℓ))
    (hblank : ∀ l ∈ stack.flatten, blank l = false) (hn : cost stack + pauses busy i ≤ n) :
    Exact bad stack.flatten (sendLines blank (answersFrom server i n) stack)
      (requests blank (answersFrom server i n) stack) := by
  induction n generalizing i stack with
  | zero =>
      have hcost := cost_toPost blank stack
      rw [flatten_toPost hblank]
      cases htop : toPost blank stack with
      | nil => exact ⟨by simp [answersFrom, sendLines, htop], rfl⟩
      | cons chunk rest =>
          have hpos := length_pos_of_toPost htop
          rw [htop, cost_cons] at hcost
          omega
  | succ n ih =>
      have hcost := cost_toPost blank stack
      have hflat := flatten_toPost hblank
      have hsched : answersFrom server i (n + 1) = server i :: answersFrom server (i + 1) n := by
        rw [answersFrom, List.range'_succ]
        rfl
      rw [hsched]
      rw [hflat] at hblank ⊢
      cases htop : toPost blank stack with
      | nil => exact ⟨by simp [sendLines, htop], by simp [requests, htop, accepted]⟩
      | cons chunk rest =>
          rw [htop] at hblank
          rw [htop, cost_cons] at hcost
          have hpos := length_pos_of_toPost htop
          have hpauses := pauses_succ busy i
          have hrest : ∀ l ∈ rest.flatten, blank l = false := fun l hl =>
            hblank l (List.mem_append_right _ hl)
          rcases hserver.judged i chunk with hjudged | ⟨hmem, hbusy⟩
          · rcases result_judged hjudged with ⟨hany, m, hres⟩ | ⟨hgood, hres⟩
            · by_cases hone : chunk.length = 1
              · -- a single bad line is handed back
                obtain ⟨l, hl⟩ := List.length_eq_one_iff.mp hone
                have hbad : bad l = true := by simpa [hl] using hany
                exact exact_single htop hl hres hbad (ih (i + 1) rest hrest (by omega))
              · -- both halves are tried, the first one first
                have hhalf := cost_halves hpos hone rest
                rw [cost_cons chunk] at hhalf
                have hhalves := flatten_halves chunk rest (chunk.length / 2)
                refine exact_again hhalves ?_ ?_ hres (ih (i + 1) _ ?_ (by omega))
                · simp [sendLines, htop, hres, hone]
                · simp [requests, htop, hres, hone]
                · rw [hhalves]
                  exact hblank
            · exact exact_ok htop hres hgood (ih (i + 1) rest hrest (by omega))
          · -- the same chunk is sent again
            obtain ⟨d, hres⟩ := result_busy hbusy
            have hless := pauses_of_mem hmem
            refine exact_again rfl ?_ ?_ hres
              (ih (i + 1) (chunk :: rest) hblank (by rw [cost_cons]; omega))
            · simp [sendLines, htop, hres]
            · simp [requests, htop, hres]

end Ship

namespace FileSource

open Ship

/-- **A bisected batch**: a server that judges lines, apart from finitely many
pauses, takes each good line once and in order and the bad ones come back; a
request that fails for another reason fails the call, and the task hands the
whole batch back. -/
theorem bisect_isolates (lines : List Line) (hlines : ∀ l ∈ lines, l.text ≠ []) :
    (∀ bad server busy, Judges bad server busy → ∃ n, ∀ m, n ≤ m →
      (sendLines blank (answersFrom server 0 m) [lines]).outcome = .shipped (lines.filter bad)
        ∧ accepted (requests blank (answersFrom server 0 m) [lines])
          = lines.filter fun l => !bad l)
    ∧ ∀ sched r e, r ∈ requests blank sched [lines] → result r.2 = .error e → fatal e = true →
      (sendLines blank sched [lines]).outcome = .failed e
        ∧ ∀ s i, s.inflight[i]? = some (.running lines) →
          ∃ s', finish s i sched = some s' ∧ s'.inflight[i]? = some (.failed lines e) := by
  constructor
  · intro bad server busy hserver
    refine ⟨cost [lines] + pauses busy 0, fun m hm => ?_⟩
    have hblank : ∀ l ∈ [lines].flatten, blank l = false := by
      intro l hl
      exact List.isEmpty_eq_false_iff.mpr (hlines l (by simpa using hl))
    have hexact := exact_of_judges hserver m 0 [lines] hblank hm
    rw [List.flatten_singleton] at hexact
    exact ⟨hexact.poison, hexact.good⟩
  · intro sched r e hr he hfatal
    have hfailed := failed_of_fatal hr he hfatal
    refine ⟨hfailed, fun s i hi => ?_⟩
    have hlt : i < s.inflight.length := (List.getElem?_eq_some_iff.mp hi).1
    let s' : State :=
      { s with
        acked := s.acked ++ (sendLines blank sched [lines]).acked
        inflight := s.inflight.set i (.failed lines e) }
    have hfinish : finish s i sched = some s' := by simp only [finish, hi, hfailed, s']
    exact ⟨s', hfinish, by simp [s', hlt]⟩

/-- Busy at first, then a server that rejects late lines. -/
def pickyServer (i : Nat) : Answer Line := fun chunk =>
  if i = 0 then .status 429 none ""
  else if chunk.any (·.late) then .status 400 none "rejected" else .status 204 none ""

theorem pickyServer_judges : Judges Line.late pickyServer {0} where
  judged := by
    intro i chunk
    by_cases hi : i = 0
    · exact .inr ⟨by simp [hi], none, "", by simp [pickyServer, hi]⟩
    · refine .inl ?_
      unfold Judged
      split
      · rename_i hany
        exact ⟨none, "rejected", by simp [pickyServer, hi, hany]⟩
      · rename_i hany
        exact ⟨none, "", by simp [pickyServer, hi, hany]⟩

theorem bisect_isolates_picky :
    let good : Line := { ids := [0], ts := 1, late := false, text := "a\n".toList }
    let bad : Line := { ids := [1], ts := 1, late := true, text := "b\n".toList }
    ∃ n, ∀ m, n ≤ m →
      (sendLines blank (answersFrom pickyServer 0 m) [[good, bad, good]]).outcome
          = .shipped [bad]
        ∧ accepted (requests blank (answersFrom pickyServer 0 m) [[good, bad, good]])
          = [good, good] :=
  (bisect_isolates _ (by decide)).1 Line.late pickyServer {0} pickyServer_judges

end FileSource

end Tributary
