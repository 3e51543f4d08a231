import Tributary.Lib.Decimal

/-!
# The shipper

`send` turns one HTTP answer into a result, `send_lines` halves what is
rejected until single lines are left. The server is a schedule of answers, one
for each request, each a function of the chunk it is asked about; a run that
outlives its schedule is still waiting.
-/

namespace Tributary.Ship

open Lib

/-! ## One request -/

/-- What comes back for one request. -/
inductive Reply where
  | wire (error : String)
  /-- a status, the `retry-after` header as character codes, and the body -/
  | status (code : Nat) (retryAfter : Option (List Nat)) (text : String)
deriving DecidableEq, Repr

inductive ShipError where
  | rejected (m : String)
  | backpressure (secs : Nat)
  | unauthorized (m : String)
  | wrongNode (m : String)
  | transport (m : String)
deriving DecidableEq, Repr

/-- The result `send` draws from an answer. -/
def result : Reply → Except ShipError Unit
  | .wire error => .error (.transport error)
  | .status code retryAfter text =>
      if code = 204 then .ok ()
      else if code = 429 then
        .error (.backpressure ((retryAfter.bind Decimal.parse).getD 1))
      else if code = 400 then .error (.rejected text)
      else if code = 401 ∨ code = 403 then .error (.unauthorized s!"HTTP {code}: {text}")
      else if code = 501 then .error (.wrongNode s!"HTTP 501: {text}")
      else .error (.transport s!"HTTP {code}: {text}")

/-- The server's answer to one request, given the chunk that is posted. -/
abbrev Answer (ℓ : Type) := List ℓ → Reply

/-! ## A batch -/

inductive Outcome (ℓ : Type) where
  /-- dealt with, apart from the lines in `poison` -/
  | shipped (poison : List ℓ)
  | failed (e : ShipError)
  /-- no answer yet -/
  | pending
deriving DecidableEq, Repr

/-- A finished call: its outcome, the lines of the accepted requests, and the
answers left over. -/
structure Sent (ℓ : Type) where
  outcome : Outcome ℓ
  acked : List ℓ
  rest : List (Answer ℓ)

variable {ℓ : Type}

namespace Sent

/-- A request with this chunk was accepted before. -/
def accepted (s : Sent ℓ) (chunk : List ℓ) : Sent ℓ := { s with acked := chunk ++ s.acked }

/-- A single line was rejected before. -/
def poisoned (s : Sent ℓ) (chunk : List ℓ) : Sent ℓ :=
  { s with
    outcome := match s.outcome with
      | .shipped poison => .shipped (chunk ++ poison)
      | o => o }

end Sent

variable (blank : ℓ → Bool)

/-- The stack from the first chunk that is posted: an empty one is skipped, and
an empty body is no request. -/
def toPost (stack : List (List ℓ)) : List (List ℓ) :=
  stack.dropWhile fun chunk => chunk.all blank

/-- `send_lines`, from a stack of chunks. -/
def sendLines : List (Answer ℓ) → List (List ℓ) → Sent ℓ
  | [], stack =>
      { outcome := if toPost blank stack = [] then .shipped [] else .pending
        acked := []
        rest := [] }
  | answer :: sched, stack =>
      match toPost blank stack with
      | [] => { outcome := .shipped [], acked := [], rest := answer :: sched }
      | chunk :: stack =>
          match result (answer chunk) with
          | .ok () => (sendLines sched stack).accepted chunk
          | .error (.rejected _) =>
              if chunk.length = 1 then (sendLines sched stack).poisoned chunk
              else
                let mid := chunk.length / 2
                sendLines sched (chunk.take mid :: chunk.drop mid :: stack)
          | .error (.backpressure _) => sendLines sched (chunk :: stack)
          | .error e => { outcome := .failed e, acked := [], rest := sched }

attribute [grind =] sendLines

/-! ## Servers that judge lines -/

variable (bad : ℓ → Bool)

/-- A line the server rejects; a blank one never reaches it. -/
def faulty (l : ℓ) : Bool := !blank l && bad l

/-- When the server judges a chunk, it rejects it exactly when it contains a
bad line. -/
structure Honest (answer : Answer ℓ) : Prop where
  accepts : ∀ chunk, result (answer chunk) = .ok () → chunk.any (faulty blank bad) = false
  rejects : ∀ chunk m, result (answer chunk) = .error (.rejected m) →
    chunk.any (faulty blank bad) = true

/-- The server is up: it judges every chunk. -/
structure Up (answer : Answer ℓ) : Prop extends Honest blank bad answer where
  judges : ∀ chunk, result (answer chunk) = .ok ()
    ∨ ∃ m, result (answer chunk) = .error (.rejected m)

/-- The number of requests a stack can take. -/
def cost (stack : List (List ℓ)) : Nat := (stack.map fun chunk => 2 * chunk.length - 1).sum

variable {blank bad}

/-! ## One answer -/

variable (blank) in
/-- Chunks that are not posted hold blank lines only. -/
theorem toPost_split (stack : List (List ℓ)) :
    ∃ skipped, stack = skipped ++ toPost blank stack
      ∧ ∀ l ∈ skipped.flatten, blank l = true := by
  refine ⟨stack.takeWhile fun chunk => chunk.all blank,
    List.takeWhile_append_dropWhile.symm, ?_⟩
  intro l hl
  obtain ⟨chunk, hchunk, hmem⟩ := List.mem_flatten.mp hl
  have hall := List.all_eq_true.mp List.all_takeWhile chunk hchunk
  exact List.all_eq_true.mp hall l hmem

theorem toPost_head {stack rest : List (List ℓ)} {chunk : List ℓ}
    (h : toPost blank stack = chunk :: rest) : chunk.all blank = false := by
  have hhead := List.head?_dropWhile_not (fun chunk : List ℓ => chunk.all blank) stack
  rw [show List.dropWhile (fun chunk : List ℓ => chunk.all blank) stack = chunk :: rest from h]
    at hhead
  exact eq_false_of_ne_true (by simpa using hhead)

/-- A posted chunk has a line. -/
theorem length_pos_of_toPost {stack rest : List (List ℓ)} {chunk : List ℓ}
    (h : toPost blank stack = chunk :: rest) : 0 < chunk.length := by
  cases chunk with
  | nil => simpa using toPost_head h
  | cons l chunk => simp

/-- What a filter that skips blank lines finds in a stack, it finds in the
chunks that are posted. -/
theorem filter_toPost {p : ℓ → Bool} (hp : ∀ l, blank l = true → p l = false)
    (stack : List (List ℓ)) :
    (toPost blank stack).flatten.filter p = stack.flatten.filter p := by
  obtain ⟨skipped, hsplit, hblank⟩ := toPost_split blank stack
  have hnone : skipped.flatten.filter p = [] :=
    List.filter_eq_nil_iff.mpr fun l hl => by simp [hp l (hblank l hl)]
  conv_rhs => rw [hsplit, List.flatten_append, List.filter_append, hnone, List.nil_append]

theorem mem_toPost {stack : List (List ℓ)} {l : ℓ} (h : l ∈ (toPost blank stack).flatten) :
    l ∈ stack.flatten := by
  obtain ⟨skipped, hsplit, -⟩ := toPost_split blank stack
  rw [hsplit, List.flatten_append]
  exact List.mem_append_right _ h

/-- Halving keeps the lines and their order. -/
theorem flatten_halves (chunk : List ℓ) (stack : List (List ℓ)) (mid : Nat) :
    (chunk.take mid :: chunk.drop mid :: stack).flatten = (chunk :: stack).flatten := by
  simp [← List.append_assoc]

theorem sendLines_idle {stack : List (List ℓ)} (h : toPost blank stack = [])
    (sched : List (Answer ℓ)) :
    sendLines blank sched stack = { outcome := .shipped [], acked := [], rest := sched } := by
  cases sched <;> simp [sendLines, h]

/-- **What one answer does** to the chunk on top of the stack. -/
theorem sendLines_cases {stack rest : List (List ℓ)} {chunk : List ℓ}
    (h : toPost blank stack = chunk :: rest) (answer : Answer ℓ) (sched : List (Answer ℓ)) :
    (result (answer chunk) = .ok ()
        ∧ sendLines blank (answer :: sched) stack
          = (sendLines blank sched rest).accepted chunk)
      ∨ (∃ m, result (answer chunk) = .error (.rejected m) ∧ chunk.length = 1
        ∧ sendLines blank (answer :: sched) stack
          = (sendLines blank sched rest).poisoned chunk)
      ∨ (∃ m, result (answer chunk) = .error (.rejected m) ∧ chunk.length ≠ 1
        ∧ sendLines blank (answer :: sched) stack
          = sendLines blank sched (chunk.take (chunk.length / 2)
              :: chunk.drop (chunk.length / 2) :: rest))
      ∨ (∃ d, result (answer chunk) = .error (.backpressure d)
        ∧ sendLines blank (answer :: sched) stack = sendLines blank sched (chunk :: rest))
      ∨ (∃ e, result (answer chunk) = .error e
        ∧ (∀ m, e ≠ .rejected m)
        ∧ sendLines blank (answer :: sched) stack
          = { outcome := .failed e, acked := [], rest := sched }) := by
  simp only [sendLines, h]
  cases hres : result (answer chunk) with
  | ok u => exact .inl ⟨rfl, rfl⟩
  | error e =>
      cases e with
      | rejected m =>
          by_cases hone : chunk.length = 1
          · exact .inr (.inl ⟨m, rfl, hone, if_pos hone⟩)
          · exact .inr (.inr (.inl ⟨m, rfl, hone, if_neg hone⟩))
      | backpressure d => exact .inr (.inr (.inr (.inl ⟨d, rfl, rfl⟩)))
      | unauthorized m => exact .inr (.inr (.inr (.inr ⟨_, rfl, by simp, rfl⟩)))
      | wrongNode m => exact .inr (.inr (.inr (.inr ⟨_, rfl, by simp, rfl⟩)))
      | transport m => exact .inr (.inr (.inr (.inr ⟨_, rfl, by simp, rfl⟩)))

variable (blank) in
theorem sendLines_rest (sched : List (Answer ℓ)) (stack : List (List ℓ)) :
    (sendLines blank sched stack).rest <:+ sched := by
  induction sched generalizing stack with
  | nil => simp [sendLines]
  | cons answer sched ih =>
      have hcons := List.suffix_cons answer sched
      cases htop : toPost blank stack with
      | nil => simp [sendLines_idle htop]
      | cons chunk rest =>
          rcases sendLines_cases htop answer sched with ⟨-, he⟩ | ⟨m, -, -, he⟩ | ⟨m, -, -, he⟩
            | ⟨d, -, he⟩ | ⟨e, -, -, he⟩ <;> rw [he]
          · exact (ih rest).trans hcons
          · exact (ih rest).trans hcons
          · exact (ih _).trans hcons
          · exact (ih _).trans hcons
          · exact hcons

/-! ## Which lines are dealt with -/

theorem faulty_of_blank (bad : ℓ → Bool) (l : ℓ) (h : blank l = true) :
    faulty blank bad l = false := by
  simp [faulty, h]

theorem fine_of_blank (bad : ℓ → Bool) (l : ℓ) (h : blank l = true) :
    (!blank l && !bad l) = false := by
  simp [h]

/-- **Only lines the server does not reject are acknowledged**, and only lines
of the batch. -/
theorem mem_acked {sched : List (Answer ℓ)} (h : ∀ a ∈ sched, Honest blank bad a)
    {stack : List (List ℓ)} {l : ℓ} (hl : l ∈ (sendLines blank sched stack).acked) :
    l ∈ stack.flatten ∧ faulty blank bad l = false := by
  induction sched generalizing stack with
  | nil => simp [sendLines] at hl
  | cons answer sched ih =>
      have hrec := fun stack => @ih (fun a ha => h a (by simp [ha])) stack
      cases htop : toPost blank stack with
      | nil => simp [sendLines_idle htop] at hl
      | cons chunk rest =>
          have hchunk : ∀ l ∈ chunk, l ∈ stack.flatten := fun l hm =>
            mem_toPost (by rw [htop]; exact List.mem_append_left _ hm)
          have hrest : ∀ l ∈ rest.flatten, l ∈ stack.flatten := fun l hm =>
            mem_toPost (by rw [htop]; exact List.mem_append_right _ hm)
          rcases sendLines_cases htop answer sched with ⟨hok, he⟩ | ⟨m, -, -, he⟩
            | ⟨m, -, -, he⟩ | ⟨d, -, he⟩ | ⟨e, -, -, he⟩ <;> rw [he] at hl
          · rcases List.mem_append.mp hl with hm | hm
            · have hclean := (h answer (by simp)).accepts chunk hok
              exact ⟨hchunk l hm, by simpa using List.any_eq_false.mp hclean l hm⟩
            · exact (hrec rest hm).imp_left (hrest l)
          · exact (hrec rest hl).imp_left (hrest l)
          · refine (hrec _ hl).imp_left fun hm => ?_
            rw [flatten_halves] at hm
            exact (List.mem_append.mp hm).elim (hchunk l) (hrest l)
          · exact (hrec _ hl).imp_left fun hm =>
              (List.mem_append.mp hm).elim (hchunk l) (hrest l)
          · cases hl

/-- **No line disappears**: whatever the server answers, a line of a batch that
is dealt with was accepted or is handed back. -/
theorem mem_of_shipped {sched : List (Answer ℓ)} {stack : List (List ℓ)} {poison : List ℓ}
    (hs : (sendLines blank sched stack).outcome = .shipped poison) {l : ℓ}
    (hl : l ∈ stack.flatten) (hb : blank l = false) :
    l ∈ (sendLines blank sched stack).acked ∨ l ∈ poison := by
  have hpost : ∀ {stack : List (List ℓ)}, l ∈ stack.flatten → l ∈ (toPost blank stack).flatten := by
    intro stack hl
    obtain ⟨skipped, hsplit, hskip⟩ := toPost_split blank stack
    rw [hsplit, List.flatten_append] at hl
    refine (List.mem_append.mp hl).resolve_left fun hm => ?_
    rw [hskip l hm] at hb
    cases hb
  induction sched generalizing stack poison with
  | nil =>
      have hm := hpost hl
      simp only [sendLines] at hs
      split at hs
      · rename_i htop
        simp [htop] at hm
      · cases hs
  | cons answer sched ih =>
      have hm := hpost hl
      cases htop : toPost blank stack with
      | nil => simp [htop] at hm
      | cons chunk rest =>
          rw [htop, List.flatten_cons, List.mem_append] at hm
          rcases sendLines_cases htop answer sched with ⟨-, he⟩ | ⟨m, -, -, he⟩
            | ⟨m, -, -, he⟩ | ⟨d, -, he⟩ | ⟨e, -, -, he⟩ <;> rw [he] at hs ⊢
          · rcases hm with hm | hm
            · exact .inl (List.mem_append_left _ hm)
            · exact (ih hs hm).imp_left fun ha => List.mem_append_right _ ha
          · cases hout : (sendLines blank sched rest).outcome with
            | shipped poison' =>
                simp only [Sent.poisoned, hout, Outcome.shipped.injEq] at hs
                subst hs
                rcases hm with hm | hm
                · exact .inr (List.mem_append_left _ hm)
                · exact (ih hout hm).imp_right fun hp => List.mem_append_right _ hp
            | failed e => simp [Sent.poisoned, hout] at hs
            | pending => simp [Sent.poisoned, hout] at hs
          · exact ih hs (by rwa [flatten_halves, List.flatten_cons, List.mem_append])
          · exact ih hs (by rwa [List.flatten_cons, List.mem_append])
          · cases hs

/-- **Bisection isolates the bad lines**: a batch that is dealt with leaves
exactly the lines the server rejects, in order, and every other line was
accepted once, in order. -/
theorem sendLines_shipped {sched : List (Answer ℓ)} (h : ∀ a ∈ sched, Honest blank bad a)
    {stack : List (List ℓ)} {poison : List ℓ}
    (hs : (sendLines blank sched stack).outcome = .shipped poison) :
    poison = stack.flatten.filter (faulty blank bad)
      ∧ (sendLines blank sched stack).acked.filter (fun l => !blank l)
        = stack.flatten.filter fun l => !blank l && !bad l := by
  rw [← filter_toPost (faulty_of_blank bad), ← filter_toPost (fine_of_blank bad)]
  induction sched generalizing stack poison with
  | nil =>
      simp only [sendLines] at hs ⊢
      by_cases htop : toPost blank stack = []
      · rw [if_pos htop] at hs
        cases hs
        simp [htop]
      · rw [if_neg htop] at hs
        cases hs
  | cons answer sched ih =>
      have hrec : ∀ {stack poison}, (sendLines blank sched stack).outcome = .shipped poison →
          poison = stack.flatten.filter (faulty blank bad)
            ∧ (sendLines blank sched stack).acked.filter (fun l => !blank l)
              = stack.flatten.filter fun l => !blank l && !bad l := by
        intro stack poison hs
        have hi := ih (fun a ha => h a (by simp [ha])) hs
        rwa [filter_toPost (faulty_of_blank bad), filter_toPost (fine_of_blank bad)] at hi
      cases htop : toPost blank stack with
      | nil =>
          rw [sendLines_idle htop] at hs ⊢
          cases hs
          simp
      | cons chunk rest =>
          rcases sendLines_cases htop answer sched with ⟨hok, he⟩ | ⟨m, hrej, hone, he⟩
            | ⟨m, -, -, he⟩ | ⟨d, -, he⟩ | ⟨e, -, -, he⟩ <;> rw [he] at hs ⊢
          · -- the chunk is accepted: all of it is good
            have hclean := List.any_eq_false.mp ((h answer (by simp)).accepts chunk hok)
            obtain ⟨hp, ha⟩ := hrec hs
            refine ⟨?_, ?_⟩
            · rw [hp, List.flatten_cons, List.filter_append,
                List.filter_eq_nil_iff.mpr hclean, List.nil_append]
            · simp only [Sent.accepted, List.filter_append, ha, List.flatten_cons]
              congr 1
              refine List.filter_congr fun l hl => ?_
              have hgood := hclean l hl
              cases hb : blank l
              · simpa [faulty, hb] using hgood
              · rfl
          · -- a single line is rejected: it is the bad one
            obtain ⟨l, rfl⟩ := List.length_eq_one_iff.mp hone
            have hbad : blank l = false ∧ bad l = true := by
              simpa [faulty] using (h answer (by simp)).rejects _ m hrej
            cases hout : (sendLines blank sched rest).outcome with
            | shipped poison' =>
                obtain ⟨hp, ha⟩ := hrec hout
                simp only [Sent.poisoned, hout, Outcome.shipped.injEq] at hs ⊢
                subst hs
                refine ⟨?_, ?_⟩
                · simp [hp, faulty, hbad]
                · simp [ha, hbad.2]
            | failed e => simp [Sent.poisoned, hout] at hs
            | pending => simp [Sent.poisoned, hout] at hs
          · have hi := hrec hs
            rwa [flatten_halves] at hi
          · exact hrec hs
          · cases hs

/-- A batch without bad lines goes in one request, or not at all. -/
theorem sendLines_clean {sched : List (Answer ℓ)} (h : ∀ a ∈ sched, Honest blank bad a)
    {batch : List ℓ} (hc : batch.any (faulty blank bad) = false)
    (hb : batch.all blank = false) :
    ((sendLines blank sched [batch]).acked = []
        ∧ ∀ poison, (sendLines blank sched [batch]).outcome ≠ .shipped poison)
      ∨ ((sendLines blank sched [batch]).acked = batch
        ∧ (sendLines blank sched [batch]).outcome = .shipped []) := by
  have htop : toPost blank [batch] = [batch] := by simp [toPost, hb]
  induction sched with
  | nil => simp [sendLines, htop]
  | cons answer sched ih =>
      rcases sendLines_cases htop answer sched with ⟨-, he⟩ | ⟨m, hrej, -, -⟩ | ⟨m, hrej, -, -⟩
        | ⟨d, -, he⟩ | ⟨e, -, -, he⟩
      · rw [he, sendLines_idle (by rfl)]
        exact .inr ⟨List.append_nil _, rfl⟩
      · exact absurd ((h answer (by simp)).rejects _ m hrej) (by simp [hc])
      · exact absurd ((h answer (by simp)).rejects _ m hrej) (by simp [hc])
      · rw [he]
        exact ih fun a ha => h a (by simp [ha])
      · rw [he]
        exact .inl ⟨rfl, by simp⟩

/-- A request that is accepted deals with the batch. -/
theorem sendLines_accepted {answer : Answer ℓ} {batch : List ℓ} (h : result (answer batch) = .ok ()) :
    (sendLines blank [answer] [batch]).outcome = .shipped [] := by
  by_cases hb : batch.all blank = true
  · rw [sendLines_idle (by simp [toPost, hb])]
  · simp [sendLines, toPost, hb, h, Sent.accepted]

/-! ## A server that is up -/

theorem cost_cons (chunk : List ℓ) (stack : List (List ℓ)) :
    cost (chunk :: stack) = (2 * chunk.length - 1) + cost stack := by
  simp [cost]

variable (blank) in
theorem cost_toPost (stack : List (List ℓ)) : cost (toPost blank stack) ≤ cost stack := by
  obtain ⟨skipped, hsplit, -⟩ := toPost_split blank stack
  conv_rhs => rw [hsplit]
  simp only [cost, List.map_append, List.sum_append]
  omega

theorem cost_halves {chunk : List ℓ} (h0 : 0 < chunk.length) (h1 : chunk.length ≠ 1)
    (stack : List (List ℓ)) :
    cost (chunk.take (chunk.length / 2) :: chunk.drop (chunk.length / 2) :: stack) + 1
      = cost (chunk :: stack) := by
  simp only [cost_cons, List.length_take, List.length_drop]
  omega

/-- **A server that is up deals with the batch** within the requests halving
can take. -/
theorem sendLines_up {sched : List (Answer ℓ)} (h : ∀ a ∈ sched, Up blank bad a)
    {stack : List (List ℓ)} (hlen : cost stack ≤ sched.length) :
    (∃ poison, (sendLines blank sched stack).outcome = .shipped poison)
      ∧ sched.length ≤ (sendLines blank sched stack).rest.length + cost stack := by
  induction sched generalizing stack with
  | nil =>
      have hcost := cost_toPost blank stack
      cases htop : toPost blank stack with
      | nil =>
          rw [sendLines_idle htop]
          exact ⟨⟨[], rfl⟩, Nat.zero_le _⟩
      | cons chunk rest =>
          have hpos := length_pos_of_toPost htop
          rw [htop, cost_cons] at hcost
          simp only [List.length_nil] at hlen
          omega
  | cons answer sched ih =>
      have hrec := fun stack => @ih (fun a ha => h a (by simp [ha])) stack
      have hcost := cost_toPost blank stack
      rw [List.length_cons] at hlen
      cases htop : toPost blank stack with
      | nil =>
          rw [sendLines_idle htop]
          exact ⟨⟨[], rfl⟩, Nat.le_add_right _ _⟩
      | cons chunk rest =>
          have hpos := length_pos_of_toPost htop
          rw [htop, cost_cons] at hcost
          rcases sendLines_cases htop answer sched with ⟨-, he⟩ | ⟨m, -, -, he⟩
            | ⟨m, -, hmany, he⟩ | ⟨d, hbusy, -⟩ | ⟨e, hfail, hne, -⟩
          · obtain ⟨hs, hr⟩ := hrec rest (by omega)
            rw [he]
            refine ⟨hs, ?_⟩
            simp only [Sent.accepted, List.length_cons]
            omega
          · obtain ⟨⟨poison, hs⟩, hr⟩ := hrec rest (by omega)
            rw [he]
            refine ⟨⟨chunk ++ poison, by simp [Sent.poisoned, hs]⟩, ?_⟩
            simp only [Sent.poisoned, List.length_cons]
            omega
          · have hhalf := cost_halves hpos hmany rest
            rw [cost_cons chunk] at hhalf
            obtain ⟨hs, hr⟩ := hrec (chunk.take (chunk.length / 2)
              :: chunk.drop (chunk.length / 2) :: rest) (by omega)
            rw [he]
            refine ⟨hs, ?_⟩
            rw [List.length_cons]
            omega
          · rcases (h answer (by simp)).judges chunk with hok | ⟨m, hrej⟩
            · rw [hok] at hbusy
              cases hbusy
            · rw [hrej] at hbusy
              cases hbusy
          · rcases (h answer (by simp)).judges chunk with hok | ⟨m, hrej⟩
            · rw [hok] at hfail
              cases hfail
            · rw [hrej] at hfail
              exact absurd (Except.error.inj hfail).symm (hne m)

end Tributary.Ship
