import Tributary.Ship

/-!
# Requests

The requests `send_lines` makes, in order, with what the server answers to each, and what
of a batch the accepted ones ship.
-/

namespace Tributary.Ship

variable {ℓ : Type} (blank : ℓ → Bool)

/-- The requests of `send_lines`, each with its answer. -/
def requests : List (Answer ℓ) → List (List ℓ) → List (List ℓ × Reply)
  | [], _ => []
  | answer :: sched, stack =>
      match toPost blank stack with
      | [] => []
      | chunk :: stack =>
          (chunk, answer chunk) ::
            match result (answer chunk) with
            | .ok () => requests sched stack
            | .error (.rejected _) =>
                if chunk.length = 1 then requests sched stack
                else
                  let mid := chunk.length / 2
                  requests sched (chunk.take mid :: chunk.drop mid :: stack)
            | .error (.backpressure _) => requests sched (chunk :: stack)
            | .error _ => []

/-- The lines of the requests that were accepted, in the order they were sent. -/
def accepted (reqs : List (List ℓ × Reply)) : List ℓ :=
  (reqs.filter fun r => match result r.2 with | .ok () => true | .error _ => false).flatMap (·.1)

/-- The chunks that were accepted, a request each. -/
def taken (reqs : List (List ℓ × Reply)) : List (List ℓ) :=
  (reqs.filter fun r => match result r.2 with | .ok () => true | .error _ => false).map (·.1)

variable {blank}

theorem requests_idle {stack : List (List ℓ)} (h : toPost blank stack = [])
    (sched : List (Answer ℓ)) : requests blank sched stack = [] := by
  cases sched <;> simp [requests, h]

/-- What the first answer leads to: a post, and the posts of the stack that is left. -/
theorem requests_cases {stack rest : List (List ℓ)} {chunk : List ℓ}
    (h : toPost blank stack = chunk :: rest) (answer : Answer ℓ) (sched : List (Answer ℓ)) :
    ∃ more, requests blank (answer :: sched) stack = (chunk, answer chunk) :: more ∧
      ((result (answer chunk) = .ok () ∧ more = requests blank sched rest) ∨
        ((∃ m, result (answer chunk) = .error (.rejected m)) ∧ chunk.length = 1 ∧
          more = requests blank sched rest) ∨
        ((∃ m, result (answer chunk) = .error (.rejected m)) ∧ chunk.length ≠ 1 ∧
          more = requests blank sched (chunk.take (chunk.length / 2)
            :: chunk.drop (chunk.length / 2) :: rest)) ∨
        ((∃ d, result (answer chunk) = .error (.backpressure d)) ∧
          more = requests blank sched (chunk :: rest)) ∨
        ((∃ e, result (answer chunk) = .error e) ∧ more = [])) := by
  simp only [requests, h]
  cases hres : result (answer chunk) with
  | ok u => exact ⟨_, rfl, .inl ⟨rfl, rfl⟩⟩
  | error e =>
      cases e with
      | rejected m =>
          by_cases hone : chunk.length = 1
          · exact ⟨_, rfl, .inr (.inl ⟨⟨m, rfl⟩, hone, if_pos hone⟩)⟩
          · exact ⟨_, rfl, .inr (.inr (.inl ⟨⟨m, rfl⟩, hone, if_neg hone⟩))⟩
      | backpressure d => exact ⟨_, rfl, .inr (.inr (.inr (.inl ⟨⟨d, rfl⟩, rfl⟩)))⟩
      | unauthorized m => exact ⟨_, rfl, .inr (.inr (.inr (.inr ⟨⟨_, rfl⟩, rfl⟩)))⟩
      | wrongNode m => exact ⟨_, rfl, .inr (.inr (.inr (.inr ⟨⟨_, rfl⟩, rfl⟩)))⟩
      | transport m => exact ⟨_, rfl, .inr (.inr (.inr (.inr ⟨⟨_, rfl⟩, rfl⟩)))⟩

/-- **Every posted chunk is a piece of a chunk of the stack.** -/
theorem infix_of_requests {sched : List (Answer ℓ)} {stack : List (List ℓ)} {p : List ℓ × Reply}
    (h : p ∈ requests blank sched stack) : ∃ c ∈ stack, p.1 <:+: c := by
  induction sched generalizing stack with
  | nil => cases h
  | cons answer sched ih =>
      cases htop : toPost blank stack with
      | nil =>
          rw [requests_idle htop] at h
          cases h
      | cons chunk rest =>
          have hsuffix : chunk :: rest <:+ stack := htop ▸ List.dropWhile_suffix _
          -- what is left to do holds pieces of the stack only
          have hin : ∀ c ∈ chunk :: rest, ∃ c' ∈ stack, c <:+: c' := fun c hc =>
            ⟨c, hsuffix.subset hc, List.infix_rfl⟩
          have hlift : ∀ stack' : List (List ℓ),
              (∀ c ∈ stack', ∃ c' ∈ chunk :: rest, c <:+: c') →
              p ∈ requests blank sched stack' → ∃ c ∈ stack, p.1 <:+: c := by
            intro stack' hstack' hp
            obtain ⟨c, hc, hpc⟩ := ih hp
            obtain ⟨c', hc', hcc'⟩ := hstack' c hc
            obtain ⟨c'', hc'', hcc''⟩ := hin c' hc'
            exact ⟨c'', hc'', hpc.trans (hcc'.trans hcc'')⟩
          have hrest : ∀ c ∈ rest, ∃ c' ∈ chunk :: rest, c <:+: c' := fun c hc =>
            ⟨c, List.mem_cons_of_mem _ hc, List.infix_rfl⟩
          have hchunk : ∀ c, c <:+: chunk → ∃ c' ∈ chunk :: rest, c <:+: c' := fun c hc =>
            ⟨chunk, List.mem_cons_self .., hc⟩
          obtain ⟨more, hrequests, hmore⟩ := requests_cases htop answer sched
          rw [hrequests] at h
          rcases List.mem_cons.mp h with rfl | h
          · exact hin _ (List.mem_cons_self ..)
          rcases hmore with ⟨-, rfl⟩ | ⟨-, -, rfl⟩ | ⟨-, -, rfl⟩ | ⟨-, rfl⟩ | ⟨-, rfl⟩
          · exact hlift rest hrest h
          · exact hlift rest hrest h
          · refine hlift _ (fun c hc => ?_) h
            rcases List.mem_cons.mp hc with rfl | hc
            · exact hchunk _ (List.take_prefix _ _).isInfix
            rcases List.mem_cons.mp hc with rfl | hc
            · exact hchunk _ (List.drop_suffix _ _).isInfix
            · exact hrest c hc
          · exact hlift _ (fun c hc => ⟨c, hc, List.infix_rfl⟩) h
          · cases h

theorem flatten_taken (reqs : List (List ℓ × Reply)) : (taken reqs).flatten = accepted reqs :=
  List.flatMap_def.symm

theorem accepted_cons_ok {chunk : List ℓ} {reply : Reply} (h : result reply = .ok ())
    (reqs : List (List ℓ × Reply)) :
    accepted ((chunk, reply) :: reqs) = chunk ++ accepted reqs := by
  simp [accepted, h]

theorem accepted_cons_error {chunk : List ℓ} {reply : Reply} {e : ShipError}
    (h : result reply = .error e) (reqs : List (List ℓ × Reply)) :
    accepted ((chunk, reply) :: reqs) = accepted reqs := by
  simp [accepted, h]

/-- The stack in front of a request, without the empty chunks. -/
theorem flatten_toPost {stack : List (List ℓ)} (hblank : ∀ l ∈ stack.flatten, blank l = false) :
    stack.flatten = (toPost blank stack).flatten := by
  obtain ⟨skipped, hsplit, hskip⟩ := toPost_split blank stack
  have hnone : skipped.flatten = [] := by
    rw [List.eq_nil_iff_forall_not_mem]
    intro l hl
    have hb := hblank l (by rw [hsplit, List.flatten_append]; exact List.mem_append_left _ hl)
    rw [hskip l hl] at hb
    cases hb
  conv_lhs => rw [hsplit, List.flatten_append, hnone, List.nil_append]

/-- The accepted requests hold the acknowledged lines. -/
theorem accepted_requests (sched : List (Answer ℓ)) (stack : List (List ℓ)) :
    accepted (requests blank sched stack) = (sendLines blank sched stack).acked := by
  induction sched generalizing stack with
  | nil => rfl
  | cons answer sched ih =>
      rw [requests, sendLines]
      cases toPost blank stack with
      | nil => rfl
      | cons chunk rest =>
          dsimp only
          cases hres : result (answer chunk) with
          | ok u =>
              rw [accepted_cons_ok hres, ih rest]
              rfl
          | error e =>
              rw [accepted_cons_error hres]
              cases e with
              | rejected m =>
                  dsimp only
                  split
                  · exact ih rest
                  · exact ih _
              | backpressure d => exact ih _
              | unauthorized m => rfl
              | wrongNode m => rfl
              | transport m => rfl

/-- Only lines of the batch are acknowledged. -/
theorem acked_subset (sched : List (Answer ℓ)) (stack : List (List ℓ)) :
    ∀ l ∈ (sendLines blank sched stack).acked, l ∈ stack.flatten := by
  induction sched generalizing stack with
  | nil => simp [sendLines]
  | cons answer sched ih =>
      intro l hl
      cases htop : toPost blank stack with
      | nil => simp [sendLines_idle htop] at hl
      | cons chunk rest =>
          suffices hpost : l ∈ (toPost blank stack).flatten from mem_toPost hpost
          rw [htop, List.flatten_cons, List.mem_append]
          rcases sendLines_cases htop answer sched with ⟨-, he⟩ | ⟨m, -, -, he⟩ | ⟨m, -, -, he⟩
            | ⟨d, -, he⟩ | ⟨e, -, -, he⟩ <;> rw [he] at hl
          · exact (List.mem_append.mp hl).imp_right (ih rest l)
          · exact .inr (ih rest l hl)
          · have hmem := ih _ l hl
            rwa [flatten_halves, List.flatten_cons, List.mem_append] at hmem
          · exact List.mem_append.mp (List.flatten_cons ▸ ih _ l hl)
          · cases hl

/-- Only lines of the batch are handed back. -/
theorem poison_subset {sched : List (Answer ℓ)} {stack : List (List ℓ)} {poison : List ℓ}
    (hs : (sendLines blank sched stack).outcome = .shipped poison) :
    ∀ l ∈ poison, l ∈ stack.flatten := by
  induction sched generalizing stack poison with
  | nil =>
      simp only [sendLines] at hs
      split at hs
      · cases hs
        exact fun l hl => absurd hl List.not_mem_nil
      · cases hs
  | cons answer sched ih =>
      intro l hl
      cases htop : toPost blank stack with
      | nil =>
          rw [sendLines_idle htop] at hs
          cases hs
          cases hl
      | cons chunk rest =>
          suffices hpost : l ∈ (toPost blank stack).flatten from mem_toPost hpost
          rw [htop, List.flatten_cons, List.mem_append]
          rcases sendLines_cases htop answer sched with ⟨-, he⟩ | ⟨m, -, -, he⟩ | ⟨m, -, -, he⟩
            | ⟨d, -, he⟩ | ⟨e, -, -, he⟩ <;> rw [he] at hs
          · exact .inr (ih hs l hl)
          · cases hout : (sendLines blank sched rest).outcome with
            | shipped poison' =>
                simp only [Sent.poisoned, hout, Outcome.shipped.injEq] at hs
                subst hs
                exact (List.mem_append.mp hl).imp_right (ih hout l)
            | failed e => simp [Sent.poisoned, hout] at hs
            | pending => simp [Sent.poisoned, hout] at hs
          · have hmem := ih hs l hl
            rwa [flatten_halves, List.flatten_cons, List.mem_append] at hmem
          · exact List.mem_append.mp (List.flatten_cons ▸ ih hs l hl)
          · cases hs

/-- **A batch that is dealt with** is what was acknowledged and what is handed back,
each line once. -/
theorem perm_of_shipped {sched : List (Answer ℓ)} {stack : List (List ℓ)} {poison : List ℓ}
    (hs : (sendLines blank sched stack).outcome = .shipped poison)
    (h : ∀ l ∈ stack.flatten, blank l = false) :
    ((sendLines blank sched stack).acked ++ poison).Perm stack.flatten := by
  induction sched generalizing stack poison with
  | nil =>
      simp only [sendLines] at hs
      split at hs
      · rename_i htop
        cases hs
        rw [flatten_toPost h, htop]
        exact List.Perm.refl _
      · cases hs
  | cons answer sched ih =>
      cases htop : toPost blank stack with
      | nil =>
          rw [sendLines_idle htop] at hs ⊢
          cases hs
          rw [flatten_toPost h, htop]
          exact List.Perm.refl _
      | cons chunk rest =>
          have hflat : chunk ++ rest.flatten = stack.flatten := by
            rw [flatten_toPost h, htop, List.flatten_cons]
          have hrest : ∀ l ∈ rest.flatten, blank l = false :=
            fun l hl => h l (hflat ▸ List.mem_append_right _ hl)
          have hall : ∀ l ∈ (chunk :: rest).flatten, blank l = false :=
            fun l hl => h l (hflat ▸ hl)
          rw [← hflat]
          rcases sendLines_cases htop answer sched with ⟨-, he⟩ | ⟨m, -, -, he⟩ | ⟨m, -, -, he⟩
            | ⟨d, -, he⟩ | ⟨e, -, -, he⟩ <;> rw [he] at hs ⊢
          · show (chunk ++ (sendLines blank sched rest).acked ++ poison).Perm _
            rw [List.append_assoc]
            exact (ih hs hrest).append_left chunk
          · cases hout : (sendLines blank sched rest).outcome with
            | shipped poison' =>
                simp only [Sent.poisoned, hout, Outcome.shipped.injEq] at hs
                subst hs
                exact (List.perm_append_comm_assoc ..).trans ((ih hout hrest).append_left chunk)
            | failed e => simp [Sent.poisoned, hout] at hs
            | pending => simp [Sent.poisoned, hout] at hs
          · have hi := ih hs (by rwa [flatten_halves])
            rwa [flatten_halves] at hi
          · exact ih hs hall
          · cases hs

end Tributary.Ship
