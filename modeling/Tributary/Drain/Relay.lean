import Tributary.Drain
import Tributary.Queue.Fifo
import Tributary.Ship.Requests

/-!
# A queue with a drain task beside it

The receiver and the collector spawn their drain: a task that takes the front segment, reads
it, sends its lines and retires it, while others push. The queue is locked for each call and
not between them, so pushes fall anywhere between the steps of a turn, and the process may be
killed at any of them. What a turn is working on stays the front of the queue all the same.
-/

namespace Tributary

open Lib Queue Ship

/-! ## The two tasks -/

/-- Where the drain task is in its loop. -/
inductive Relay.Turn (β : Type) where
  | idle
  /-- `front` gave this path -/
  | found (path : FileName)
  /-- and `read` its body -/
  | loaded (path : FileName) (body : β)
  /-- whose lines were sent -/
  | sent (path : FileName)
deriving DecidableEq, Repr

/-- The queue on its disk and the drain; the rest is what has happened: the bodies that became
segments, those that were retired, the lines the server accepted and those it rejected. -/
structure Relay (β ℓ : Type) where
  host : Host β
  turn : Relay.Turn β
  landed : List β
  settled : List β
  acked : List ℓ
  rejected : List ℓ

namespace Relay

inductive Event (β ℓ : Type) where
  | «open» (maxBytes : Nat)
  | openKilled (swept : List FileName)
  | kill
  | push (body : β) (io : Io)
  | pushKilled (body : β) (at_ : KillPoint)
  | look
  | load
  | send (sched : List (Answer ℓ))
  /-- killed with these requests answered -/
  | sendKilled (sched : List (Answer ℓ))
  | pop
  | popKilled (removed : Bool)

variable {β ℓ : Type}

def empty : Relay β ℓ :=
  { host := Host.empty, turn := .idle, landed := [], settled := [], acked := [], rejected := [] }

variable (d : Drainer β ℓ)

/-- The state after the front segment was removed. -/
def removed (s : Relay β ℓ) (dir : Dir β) (queue : Option Queue) : Relay β ℓ :=
  { s with
    host := { s.host with dir, queue, fifo := s.host.fifo.tail }
    turn := .idle
    settled := s.settled ++ s.host.fifo.take 1 }

def step (s : Relay β ℓ) : Event β ℓ → Option (Relay β ℓ)
  | .open maxBytes =>
      (Host.step d.size s.host (.open maxBytes)).map fun host => { s with host, turn := .idle }
  | .openKilled swept =>
      (Host.step d.size s.host (.openKilled swept)).map fun host => { s with host }
  | .kill => (Host.step d.size s.host .kill).map fun host => { s with host, turn := .idle }
  | .push body io =>
      s.host.queue.bind fun q => (Host.step d.size s.host (.push body io)).map fun host =>
        { s with
          host
          landed := Host.offered s.landed body (Queue.push d.size q s.host.dir body io).1 }
  | .pushKilled body at_ =>
      (Host.step d.size s.host (.spoolKilled body at_)).map fun host =>
        { s with
          host
          turn := .idle
          -- only the rename makes it a segment
          landed := if at_ = .renamed then s.landed ++ [body] else s.landed }
  | .look =>
      match s.turn, s.host.queue with
      | .idle, some q =>
          some (match q.front with
            -- the task sleeps and looks again
            | none => s
            | some path => { s with turn := .found path })
      | _, _ => none
  | .load =>
      match s.turn with
      | .found path =>
          some (match Queue.read s.host.dir path with
            -- unreadable: the segment stays, and is tried again
            | none => { s with turn := .idle }
            | some body => { s with turn := .loaded path body })
      | _ => none
  | .send sched =>
      match s.turn with
      | .loaded path body =>
          let sent := sendLines d.blank sched [d.split body]
          match sent.outcome with
          | .shipped poison =>
              some { s with
                turn := .sent path
                acked := s.acked ++ sent.acked
                rejected := s.rejected ++ poison }
          -- all of the segment is sent again, also what was accepted of it
          | .failed _ => some { s with turn := .idle, acked := s.acked ++ sent.acked }
          | .pending => none
      | _ => none
  | .sendKilled sched =>
      match s.turn with
      | .loaded _ body =>
          (Host.step d.size s.host .kill).map fun host =>
            { s with
              host
              turn := .idle
              acked := s.acked ++ (sendLines d.blank sched [d.split body]).acked }
      | _ => none
  | .pop =>
      match s.turn with
      | .sent path =>
          s.host.queue.map fun q =>
            match Queue.pop d.size q s.host.dir path with
            | some (q, dir) => s.removed dir (some q)
            | none => { s with turn := .idle }
      | _ => none
  | .popKilled removed =>
      match s.turn with
      | .sent path =>
          s.host.queue.map fun _ =>
            if removed then s.removed (s.host.dir.remove path) none
            else { s with host := { s.host with queue := none }, turn := .idle }
      | _ => none

/-- The sequence number a push could use still has twelve digits. -/
def Sequenced (s : Relay β ℓ) (_ : Event β ℓ) : Prop :=
  ∀ q ∈ s.host.queue, q.nextSeq < 10 ^ 12

instance : DecidableRel (Sequenced (β := β) (ℓ := ℓ)) := fun s _ =>
  inferInstanceAs (Decidable (∀ q ∈ s.host.queue, q.nextSeq < 10 ^ 12))

/-! ## The invariant -/

/-- Each line that is a record was accepted, or rejected as a request of its own. -/
def Delivered (s : Relay β ℓ) (body : β) : Prop :=
  ∀ l ∈ d.records body, l ∈ s.acked ∨ l ∈ s.rejected

/-- The drain works on the front of the queue, wherever it is in its turn. -/
def AtFront (s : Relay β ℓ) (live : List (Nat × β)) : Prop :=
  match s.turn with
  | .idle => True
  | .found path => ∃ x, live.head? = some x ∧ path = name x
  | .loaded path body => ∃ x, live.head? = some x ∧ path = name x ∧ body = x.2
  | .sent path => ∃ x, live.head? = some x ∧ path = name x ∧ Delivered d s x.2

/-- What landed is settled from the front, in order, and only when its lines are delivered. -/
structure Inv (s : Relay β ℓ) (live : List (Nat × β)) : Prop
    extends Host.Represents d.size s.host live where
  working : s.turn ≠ .idle → s.host.queue ≠ none
  front : AtFront d s live
  order : s.landed = s.settled ++ s.host.fifo
  delivered : ∀ body ∈ s.settled, Delivered d s body
  sent : ∀ l, l ∈ s.acked ∨ l ∈ s.rejected → ∃ body ∈ s.landed, l ∈ d.split body

variable {d} {s t : Relay β ℓ} {live : List (Nat × β)} {x : Nat × β} {body : β}

theorem Inv.empty : Inv d (Relay.empty : Relay β ℓ) [] where
  toRepresents := .empty
  working := fun h => absurd rfl h
  front := True.intro
  order := rfl
  delivered := by simp [Relay.empty]
  sent := by simp [Relay.empty]

/-! ## One step -/

/-- What is delivered stays delivered. -/
theorem Delivered.mono (h : Delivered d s body) (ha : s.acked ⊆ t.acked)
    (hr : s.rejected ⊆ t.rejected) : Delivered d t body :=
  fun l hl => (h l hl).imp (fun h => ha h) fun h => hr h

/-- The drain starts its loop anew over a queue that holds what it held. -/
theorem Inv.restarted (h : Inv d s live) {host : Host β}
    (hrep : Host.Represents d.size host live) (hfifo : host.fifo = s.host.fifo) :
    Inv d { s with host, turn := .idle } live where
  toRepresents := hrep
  working := fun hidle => absurd rfl hidle
  front := True.intro
  order := by rw [h.order, hfifo]
  delivered := h.delivered
  sent := h.sent

/-- A body lands behind the others; the front is what it was. -/
theorem AtFront.snoc (h : AtFront d s live) {s' : Relay β ℓ} (hturn : s'.turn = s.turn)
    (hdel : ∀ body, Delivered d s body → Delivered d s' body) (more : List (Nat × β)) :
    AtFront d s' (live ++ more) := by
  have hhead : ∀ x, live.head? = some x → (live ++ more).head? = some x := by
    intro x hx
    rw [List.head?_append, hx, Option.some_or]
  simp only [AtFront, hturn] at h ⊢
  split
  · exact True.intro
  · rename_i path hpath
    simp only [hpath] at h
    obtain ⟨x, hx, rest⟩ := h
    exact ⟨x, hhead x hx, rest⟩
  · rename_i path body hpath
    simp only [hpath] at h
    obtain ⟨x, hx, rest⟩ := h
    exact ⟨x, hhead x hx, rest⟩
  · rename_i path hpath
    simp only [hpath] at h
    obtain ⟨x, hx, hname, hsent⟩ := h
    exact ⟨x, hhead x hx, hname, hdel _ hsent⟩

/-- A queue that holds what it held, while the drain is anywhere in its turn. -/
theorem Inv.kept (h : Inv d s live) {host : Host β} (hrep : Host.Represents d.size host live)
    (hfifo : host.fifo = s.host.fifo) (hq : host.queue ≠ none) : Inv d { s with host } live where
  toRepresents := hrep
  working := fun _ => hq
  front := h.front
  order := by rw [h.order, hfifo]
  delivered := h.delivered
  sent := h.sent

/-- A body became a segment. -/
theorem Inv.landed (h : Inv d s live) {host : Host β} {n : Nat}
    (hrep : Host.Represents d.size host (live ++ [(n, body)])) (hq : host.queue ≠ none)
    (hfifo : host.fifo = s.host.fifo ++ [body]) :
    Inv d { s with host, landed := s.landed ++ [body] } (live ++ [(n, body)]) where
  toRepresents := hrep
  working := fun _ => hq
  front := h.front.snoc rfl (fun _ hdel => hdel) _
  order := by rw [h.order, hfifo, List.append_assoc]
  delivered := h.delivered
  sent := fun l hl => (h.sent l hl).imp fun _ hb => ⟨List.mem_append_left _ hb.1, hb.2⟩

theorem Inv.push (h : Inv d s live) {q : Queue} (hq : s.host.queue = some q)
    (hseq : q.nextSeq < 10 ^ 12) {io : Io} (ht : step d s (.push body io) = some t) :
    ∃ live', Inv d t live' := by
  have hst := h.running q hq
  simp only [step, hq, Option.bind_some, Host.step, Option.map_some, Option.some.injEq] at ht
  subst ht
  rcases hst.push_cases body io with ⟨-, he⟩ | ⟨-, -, he⟩ | ⟨at_, e, -, -, he⟩
    | ⟨at_, e, -, -, he⟩ <;>
    rw [he]
  · exact ⟨_, h.kept (.of_stored (hst.setFull true) h.narrow h.fifo) rfl (by simp)⟩
  · have hrep : Host.Represents d.size _ (live ++ [(q.nextSeq, body)]) :=
      @Host.Represents.of_stored _ _ _ _ _ _ s.host.torn (hst.spooled body)
        (h.narrow.snoc hseq body) (by rw [List.map_append, h.fifo])
    exact ⟨_, h.landed hrep (by simp) rfl⟩
  · exact ⟨_, h.kept (.of_stored (hst.setFull true) h.narrow h.fifo) rfl (by simp)⟩
  · exact ⟨_, h.kept (.of_stored hst h.narrow h.fifo) rfl (by simp)⟩

/-- A push that is killed leaves no segment, or the finished one. -/
theorem Inv.pushKilled (h : Inv d s live) {q : Queue} (hq : s.host.queue = some q)
    (hseq : q.nextSeq < 10 ^ 12) {at_ : KillPoint}
    (ht : step d s (.pushKilled body at_) = some t) : ∃ live', Inv d t live' := by
  simp only [step, Host.step, hq, Option.map_some, Option.some.injEq] at ht
  subst ht
  obtain ⟨live', hrep⟩ := h.toRepresents.spoolKilled hq hseq body at_
  refine ⟨live', hrep, fun hidle => absurd rfl hidle, True.intro, ?_, h.delivered, ?_⟩
  · by_cases hat : at_ = .renamed
    · simp only [if_pos hat, h.order, List.append_assoc]
    · simp only [if_neg hat, h.order]
  · intro l hl
    obtain ⟨b, hb, hmem⟩ := h.sent l hl
    refine ⟨b, ?_, hmem⟩
    by_cases hat : at_ = .renamed
    · simp only [if_pos hat]
      exact List.mem_append_left _ hb
    · simp only [if_neg hat]
      exact hb

theorem Inv.look (h : Inv d s live) (ht : step d s .look = some t) : Inv d t live := by
  simp only [step] at ht
  split at ht
  · rename_i q hidle hq
    cases ht
    rw [(h.running q hq).front]
    cases live with
    | nil => exact h
    | cons x rest =>
        exact ⟨h.toRepresents, fun _ => by simp [hq], ⟨x, rfl, rfl⟩, h.order, h.delivered, h.sent⟩
  · cases ht

/-- What the drain has found is there to read. -/
theorem Inv.load (h : Inv d s live) (ht : step d s .load = some t) : Inv d t live := by
  simp only [step] at ht
  split at ht
  · rename_i path hturn
    cases ht
    have hfront := h.front
    simp only [AtFront, hturn] at hfront
    obtain ⟨x, hx, rfl⟩ := hfront
    have hmem : x ∈ live := List.mem_of_mem_head? (by simp [hx])
    rw [h.disk.read hmem]
    exact ⟨h.toRepresents, fun _ => h.working (by simp [hturn]), ⟨x, hx, rfl, rfl⟩, h.order,
      h.delivered, h.sent⟩
  · cases ht

/-- More lines were accepted or rejected, all of them of one body that landed. -/
theorem Inv.noted (h : Inv d s live) (hb : body ∈ s.landed) {acked rejected : List ℓ}
    (ha : ∀ l ∈ acked, l ∈ d.split body) (hr : ∀ l ∈ rejected, l ∈ d.split body) :
    ∀ l, l ∈ s.acked ++ acked ∨ l ∈ s.rejected ++ rejected →
      ∃ body ∈ s.landed, l ∈ d.split body := by
  intro l hl
  rw [List.mem_append, List.mem_append] at hl
  rcases hl with (hl | hl) | hl | hl
  · exact h.sent l (.inl hl)
  · exact ⟨body, hb, ha l hl⟩
  · exact h.sent l (.inr hl)
  · exact ⟨body, hb, hr l hl⟩

/-- The body the drain has loaded is the oldest of the queue, and landed. -/
theorem Inv.loaded (h : Inv d s live) {path : FileName} (hturn : s.turn = .loaded path body) :
    ∃ x rest, live = x :: rest ∧ path = name x ∧ body = x.2 ∧ body ∈ s.landed := by
  have hfront := h.front
  simp only [AtFront, hturn] at hfront
  obtain ⟨x, hx, rfl, rfl⟩ := hfront
  obtain ⟨rest, rfl⟩ := List.head?_eq_some_iff.mp hx
  refine ⟨x, rest, rfl, rfl, rfl, ?_⟩
  rw [h.order, ← h.fifo]
  exact List.mem_append_right _ (List.mem_cons_self ..)

theorem mem_split_of_acked (sched : List (Answer ℓ)) :
    ∀ l ∈ (sendLines d.blank sched [d.split body]).acked, l ∈ d.split body := by
  intro l hl
  have hmem := acked_subset sched [d.split body] l hl
  rwa [List.flatten_cons, List.flatten_nil, List.append_nil] at hmem

theorem mem_split_of_poison {sched : List (Answer ℓ)} {poison : List ℓ}
    (hs : (sendLines d.blank sched [d.split body]).outcome = .shipped poison) :
    ∀ l ∈ poison, l ∈ d.split body := by
  intro l hl
  have hmem := poison_subset hs l hl
  rwa [List.flatten_cons, List.flatten_nil, List.append_nil] at hmem

/-- A segment counts as sent when each of its lines was accepted or handed back. -/
theorem Inv.send (h : Inv d s live) {sched : List (Answer ℓ)}
    (ht : step d s (.send sched) = some t) : Inv d t live := by
  simp only [step] at ht
  split at ht
  · rename_i path body hturn
    obtain ⟨x, rest, rfl, rfl, rfl, hmem⟩ := h.loaded hturn
    have hrunning := h.working (by simp [hturn])
    split at ht
    · rename_i poison hout
      cases ht
      refine ⟨h.toRepresents, fun _ => hrunning, ⟨x, rfl, rfl, ?_⟩, h.order, ?_,
        h.noted hmem (mem_split_of_acked sched) (mem_split_of_poison hout)⟩
      · intro l hl
        obtain ⟨hsplit, hblank⟩ := Drainer.mem_records.mp hl
        have hflat : l ∈ [d.split x.2].flatten := by simpa using hsplit
        exact (mem_of_shipped hout hflat hblank).imp (List.mem_append_right _)
          (List.mem_append_right _)
      · exact fun b hb => (h.delivered b hb).mono (List.subset_append_left _ _)
          (List.subset_append_left _ _)
    · cases ht
      refine ⟨h.toRepresents, fun hidle => absurd rfl hidle, True.intro, h.order, ?_, ?_⟩
      · exact fun b hb => (h.delivered b hb).mono (List.subset_append_left _ _) (List.Subset.refl _)
      · have hnoted := h.noted hmem (mem_split_of_acked sched) (List.forall_mem_nil _)
        rwa [List.append_nil] at hnoted
    · cases ht
  · cases ht

theorem Inv.sendKilled (h : Inv d s live) {sched : List (Answer ℓ)}
    (ht : step d s (.sendKilled sched) = some t) : Inv d t live := by
  simp only [step] at ht
  split at ht
  · rename_i path body hturn
    obtain ⟨x, rest, rfl, rfl, rfl, hmem⟩ := h.loaded hturn
    obtain ⟨host, hhost, rfl⟩ := Option.map_eq_some_iff.mp ht
    obtain ⟨q, hq, rfl⟩ := Option.map_eq_some_iff.mp hhost
    refine ⟨h.toRepresents.killed, fun hidle => absurd rfl hidle, True.intro, h.order, ?_, ?_⟩
    · exact fun b hb => (h.delivered b hb).mono (List.subset_append_left _ _) (List.Subset.refl _)
    · have hnoted := h.noted hmem (mem_split_of_acked sched) (List.forall_mem_nil _)
      rwa [List.append_nil] at hnoted
  · cases ht

/-- What was sent is settled by removing it. -/
theorem Inv.removed {rest : List (Nat × β)} (h : Inv d s (x :: rest))
    (hsent : Delivered d s x.2) {dir : Dir β} {queue : Option Queue}
    (hrep : Host.Represents d.size
      { s.host with dir, queue, fifo := s.host.fifo.tail } rest) :
    Inv d (removed s dir queue) rest where
  toRepresents := hrep
  working := fun hidle => absurd rfl hidle
  front := True.intro
  order := by
    show s.landed = (s.settled ++ s.host.fifo.take 1) ++ s.host.fifo.tail
    rw [h.order, ← h.fifo]
    simp
  delivered := by
    intro b hb
    rcases List.mem_append.mp hb with hb | hb
    · exact h.delivered b hb
    · rw [← h.fifo] at hb
      rw [show b = x.2 by simpa using hb]
      exact hsent
  sent := h.sent

/-- The segment that was sent. -/
theorem Inv.sentFront (h : Inv d s live) {path : FileName} (hturn : s.turn = .sent path) :
    ∃ x rest, live = x :: rest ∧ path = name x ∧ Delivered d s x.2 := by
  have hfront := h.front
  simp only [AtFront, hturn] at hfront
  obtain ⟨x, hx, rfl, hsent⟩ := hfront
  obtain ⟨rest, rfl⟩ := List.head?_eq_some_iff.mp hx
  exact ⟨x, rest, rfl, rfl, hsent⟩

/-- The queue behind the front segment. -/
theorem Inv.behind {rest : List (Nat × β)} (h : Inv d s (x :: rest)) {q : Queue}
    (hq : s.host.queue = some q) :
    Host.Represents d.size
      { s.host with
        dir := s.host.dir.remove (name x)
        queue := some (q.retire (d.size x.2))
        fifo := s.host.fifo.tail } rest :=
  .of_stored (h.running q hq).pop_front.2 (fun y hy => h.narrow y (List.mem_cons_of_mem _ hy))
    (by rw [← h.fifo]; rfl)

theorem Inv.pop (h : Inv d s live) (ht : step d s .pop = some t) : ∃ live', Inv d t live' := by
  simp only [step] at ht
  split at ht
  · rename_i path hturn
    obtain ⟨q, hq, rfl⟩ := Option.map_eq_some_iff.mp ht
    obtain ⟨x, rest, rfl, rfl, hsent⟩ := h.sentFront hturn
    rw [(h.running q hq).pop_front.1]
    exact ⟨rest, h.removed hsent (h.behind hq)⟩
  · cases ht

/-- A kill inside `pop` comes before the removal or after it. -/
theorem Inv.popKilled (h : Inv d s live) {removed : Bool}
    (ht : step d s (.popKilled removed) = some t) : ∃ live', Inv d t live' := by
  simp only [step] at ht
  split at ht
  · rename_i path hturn
    obtain ⟨q, hq, rfl⟩ := Option.map_eq_some_iff.mp ht
    obtain ⟨x, rest, rfl, rfl, hsent⟩ := h.sentFront hturn
    cases removed with
    | false => exact ⟨_, h.restarted h.toRepresents.killed rfl⟩
    | true => exact ⟨rest, h.removed hsent (h.behind hq).killed⟩
  · cases ht

/-- **One step keeps the invariant.** -/
theorem Inv.step {e : Event β ℓ} (h : Inv d s live) (hok : Sequenced s e)
    (ht : Relay.step d s e = some t) : ∃ live', Inv d t live' := by
  cases e with
  | «open» maxBytes =>
      obtain ⟨host, hhost, rfl⟩ := Option.map_eq_some_iff.mp ht
      rw [Host.step] at hhost
      split at hhost
      · cases hhost
      · cases hhost
        exact ⟨live, h.restarted (h.toRepresents.opened maxBytes) rfl⟩
  | openKilled swept =>
      obtain ⟨host, hhost, rfl⟩ := Option.map_eq_some_iff.mp ht
      rw [Host.step] at hhost
      split at hhost
      · cases hhost
      · rename_i hq
        cases hhost
        have hidle : s.turn = .idle := Classical.not_not.mp fun hne => h.working hne hq
        have hrep := h.restarted (h.toRepresents.openKilled swept) rfl
        exact ⟨live, by simpa [hq, ← hidle] using hrep⟩
  | kill =>
      obtain ⟨host, hhost, rfl⟩ := Option.map_eq_some_iff.mp ht
      obtain ⟨q, -, rfl⟩ := Option.map_eq_some_iff.mp hhost
      exact ⟨live, h.restarted h.toRepresents.killed rfl⟩
  | push body io =>
      obtain ⟨q, hq, -⟩ := Option.bind_eq_some_iff.mp ht
      exact h.push hq (hok q hq) ht
  | pushKilled body at_ =>
      obtain ⟨host, hhost, -⟩ := Option.map_eq_some_iff.mp ht
      obtain ⟨q, hq, -⟩ := Option.map_eq_some_iff.mp hhost
      exact h.pushKilled hq (hok q hq) ht
  | look => exact ⟨live, h.look ht⟩
  | load => exact ⟨live, h.load ht⟩
  | send sched => exact ⟨live, h.send ht⟩
  | sendKilled sched => exact ⟨live, h.sendKilled ht⟩
  | pop => exact h.pop ht
  | popKilled removed => exact h.popKilled ht

/-- Every run keeps it. -/
theorem Inv.run {es : List (Event β ℓ)} (hseq : Meets (Relay.step d) Sequenced Relay.empty es)
    (hr : Lib.run (Relay.step d) Relay.empty es = some s) : ∃ live, Inv d s live :=
  run_invariant (I := fun s => ∃ live, Inv d s live)
    (fun _ _ _ ⟨_, h⟩ hok hs => h.step hok hs) ⟨[], Inv.empty⟩ hseq hr

/-- What has landed has landed. -/
theorem landed_prefix {e : Event β ℓ} (ht : Relay.step d s e = some t) :
    s.landed <+: t.landed := by
  cases e with
  | «open» maxBytes =>
      obtain ⟨host, -, rfl⟩ := Option.map_eq_some_iff.mp ht
      exact List.prefix_refl _
  | openKilled swept =>
      obtain ⟨host, -, rfl⟩ := Option.map_eq_some_iff.mp ht
      exact List.prefix_refl _
  | kill =>
      obtain ⟨host, -, rfl⟩ := Option.map_eq_some_iff.mp ht
      exact List.prefix_refl _
  | push body io =>
      obtain ⟨q, -, ht⟩ := Option.bind_eq_some_iff.mp ht
      obtain ⟨host, -, rfl⟩ := Option.map_eq_some_iff.mp ht
      rcases (Queue.push d.size q s.host.dir body io).1 with e | (_ | _)
      · exact List.prefix_refl _
      · exact List.prefix_refl _
      · exact List.prefix_append _ _
  | pushKilled body at_ =>
      obtain ⟨host, -, rfl⟩ := Option.map_eq_some_iff.mp ht
      show s.landed <+: if at_ = .renamed then s.landed ++ [body] else s.landed
      split
      · exact List.prefix_append _ _
      · exact List.prefix_refl _
  | look =>
      simp only [Relay.step] at ht
      split at ht
      · cases ht
        split <;> exact List.prefix_refl _
      · cases ht
  | load =>
      simp only [Relay.step] at ht
      split at ht
      · cases ht
        split <;> exact List.prefix_refl _
      · cases ht
  | send sched =>
      simp only [Relay.step] at ht
      split at ht
      · split at ht <;> cases ht <;> exact List.prefix_refl _
      · cases ht
  | sendKilled sched =>
      simp only [Relay.step] at ht
      split at ht
      · obtain ⟨host, -, rfl⟩ := Option.map_eq_some_iff.mp ht
        exact List.prefix_refl _
      · cases ht
  | pop =>
      simp only [Relay.step] at ht
      split at ht
      · obtain ⟨q, -, rfl⟩ := Option.map_eq_some_iff.mp ht
        split <;> exact List.prefix_refl _
      · cases ht
  | popKilled removed =>
      simp only [Relay.step] at ht
      split at ht
      · obtain ⟨q, -, rfl⟩ := Option.map_eq_some_iff.mp ht
        split <;> exact List.prefix_refl _
      · cases ht

/-! ## What may be relied on -/

/-- A segment of the directory holds the body. -/
def OnDisk (s : Relay β ℓ) (body : β) : Prop :=
  ∃ p, (p, Content.whole body) ∈ s.host.dir ∧ p.ext = Queue.lp

theorem Inv.onDisk (h : Inv d s live) (hb : body ∈ s.host.fifo) : OnDisk s body := by
  rw [← h.fifo] at hb
  obtain ⟨x, hx, rfl⟩ := List.mem_map.mp hb
  have hfile := h.disk.files.mem_iff.mpr (List.mem_map.mpr ⟨x, hx, rfl⟩)
  exact ⟨name x, (List.mem_filter.mp hfile).1, rfl⟩

/-- **Nothing that landed is lost**: its lines were accepted or rejected, or it is on disk. -/
theorem Inv.kept_or_delivered (h : Inv d s live) (hb : body ∈ s.landed) :
    Delivered d s body ∨ OnDisk s body := by
  rw [h.order] at hb
  exact (List.mem_append.mp hb).imp (h.delivered body) h.onDisk

/-! ## A server that is up -/

/-- One turn of the loop. -/
def turnOver (sched : List (Answer ℓ)) : List (Event β ℓ) := [.look, .load, .send sched, .pop]

/-- The answers are from a server that is up, and enough for the body. -/
def Suffices (d : Drainer β ℓ) (bad : ℓ → Bool) (body : β) (sched : List (Answer ℓ)) : Prop :=
  (∀ a ∈ sched, Up d.blank bad a) ∧ cost [d.split body] ≤ sched.length

variable {bad : ℓ → Bool}

/-- A turn settles the front segment. -/
theorem Inv.turnOver {rest : List (Nat × β)} (h : Inv d s (x :: rest)) (hidle : s.turn = .idle)
    {q : Queue} (hq : s.host.queue = some q) {sched : List (Answer ℓ)}
    (hup : Suffices d bad x.2 sched) :
    ∃ t, Lib.run (Relay.step d) s (turnOver sched) = some t ∧ Inv d t rest ∧ t.turn = .idle
      ∧ t.host.queue = some (q.retire (d.size x.2)) ∧ t.landed = s.landed
      ∧ t.host.fifo = s.host.fifo.tail := by
  obtain ⟨⟨poison, hout⟩, -⟩ := sendLines_up hup.1 hup.2
  have hst := h.running q hq
  have hlook : Relay.step d s .look = some { s with turn := .found (name x) } := by
    simp only [Relay.step, hidle, hq, hst.front, List.head?_cons, Option.map_some]
  have hfound := h.look hlook
  have hload : Relay.step d { s with turn := .found (name x) } .load
      = some { s with turn := .loaded (name x) x.2 } := by
    simp only [Relay.step, hst.read (List.mem_cons_self ..)]
  have hloaded := hfound.load hload
  have hsend : Relay.step d { s with turn := .loaded (name x) x.2 } (.send sched)
      = some { s with
          turn := .sent (name x)
          acked := s.acked ++ (sendLines d.blank sched [d.split x.2]).acked
          rejected := s.rejected ++ poison } := by
    simp only [Relay.step, hout]
  have hsent := hloaded.send hsend
  obtain ⟨y, rest, heq, -, hdel⟩ := hsent.sentFront rfl
  cases heq
  refine ⟨_, ?_, hsent.removed hdel (hsent.behind hq), rfl, rfl, rfl, rfl⟩
  simp only [Relay.turnOver, Lib.run, hlook, hload, hsend, Option.bind_some]
  simp only [Relay.step, hq, Option.map_some, hst.pop_front.1, Option.bind_some]

/-- **A server that is up empties the queue**, in as many turns as there are segments. -/
theorem Inv.drains (h : Inv d s live) (hidle : s.turn = .idle) (hq : s.host.queue ≠ none)
    {scheds : List (List (Answer ℓ))} (hup : List.Forall₂ (Suffices d bad) s.host.fifo scheds) :
    ∃ t, Lib.run (Relay.step d) s (scheds.flatMap Relay.turnOver) = some t
      ∧ t.landed = s.landed ∧ t.settled = s.landed ∧ Inv d t [] := by
  induction live generalizing s scheds with
  | nil =>
      have hfifo : s.host.fifo = [] := h.fifo.symm
      rw [hfifo] at hup
      cases hup
      refine ⟨s, rfl, rfl, ?_, h⟩
      rw [h.order, hfifo, List.append_nil]
  | cons x rest ih =>
      have hfifo : s.host.fifo = x.2 :: rest.map (·.2) := h.fifo.symm
      obtain ⟨q, hq'⟩ := Option.ne_none_iff_exists'.mp hq
      rw [hfifo] at hup
      cases hup with
      | cons hfirst hup =>
          obtain ⟨u, hu, hinv, hturn, hqueue, hlanded, htail⟩ := h.turnOver hidle hq' hfirst
          rw [hfifo, List.tail_cons] at htail
          obtain ⟨t, ht, hlanded', hsettled, hnil⟩ :=
            ih hinv hturn (by simp [hqueue]) (htail ▸ hup)
          refine ⟨t, ?_, hlanded'.trans hlanded, hsettled.trans hlanded, hnil⟩
          rw [List.flatMap_cons]
          exact run_append.mpr ⟨u, hu, ht⟩

/-! ## Without kills -/

/-- Nobody is killed and no batch is given up; blank lines are no records. -/
def Steady (d : Drainer β ℓ) (s : Relay β ℓ) : Event β ℓ → Prop
  | .kill | .pushKilled _ _ | .sendKilled _ | .popKilled _ => False
  | .push body _ => ∀ l ∈ d.split body, d.blank l = false
  | .send sched => ∀ path body, s.turn = .loaded path body →
      ∀ e, (sendLines d.blank sched [d.split body]).outcome ≠ .failed e
  | _ => True

instance : DecidableRel (Steady d) := fun s e =>
  match e with
  | .kill | .pushKilled _ _ | .sendKilled _ | .popKilled _ => inferInstanceAs (Decidable False)
  | .push body _ => inferInstanceAs (Decidable (∀ l ∈ d.split body, d.blank l = false))
  | .send sched =>
      match hturn : s.turn with
      | .loaded path body =>
          match hout : (sendLines d.blank sched [d.split body]).outcome with
          | .failed e => isFalse fun h => h path body hturn e hout
          | .shipped _ | .pending => isTrue fun _ _ h e => by
              rw [hturn] at h
              cases h
              simp [hout]
      | .idle | .found _ | .sent _ => isTrue fun _ _ h => by simp [hturn] at h
  | .open _ | .openKilled _ | .look | .load | .pop => isTrue trivial

/-- What has been sent and not removed yet. -/
def inHand (s : Relay β ℓ) : List β :=
  match s.turn with
  | .sent _ => s.host.fifo.take 1
  | _ => []

/-- The lines that were accepted and those that were rejected are those of the bodies sent. -/
structure Exact (d : Drainer β ℓ) (s : Relay β ℓ) : Prop where
  whole : ∀ body ∈ s.landed, ∀ l ∈ d.split body, d.blank l = false
  once : (s.acked ++ s.rejected).Perm ((s.settled ++ inHand s).flatMap d.split)

theorem Exact.empty : Exact d (Relay.empty : Relay β ℓ) where
  whole := by simp [Relay.empty]
  once := List.Perm.refl _

/-- A body that lands does not change what is in hand. -/
theorem Inv.inHand_snoc (h : Inv d s live) (s' : Relay β ℓ) (hturn : s'.turn = s.turn)
    (hfifo : s'.host.fifo = s.host.fifo ++ [body]) : inHand s' = inHand s := by
  rw [inHand, inHand, hturn, hfifo]
  split
  · rename_i path hpath
    obtain ⟨x, rest, rfl, -⟩ := h.sentFront hpath
    rw [← h.fifo]
    simp
  · rfl

theorem Exact.push (hx : Exact d s) (h : Inv d s live) {io : Io}
    (hwhole : ∀ l ∈ d.split body, d.blank l = false)
    (ht : Relay.step d s (.push body io) = some t) : Exact d t := by
  obtain ⟨q, hq, ht⟩ := Option.bind_eq_some_iff.mp ht
  rcases hpush : Queue.push d.size q s.host.dir body io with ⟨answer, q', dir'⟩
  simp only [Host.step, hq, hpush, Option.map_some, Option.some.injEq] at ht
  subst ht
  rcases answer with e | (_ | _)
  · exact ⟨hx.whole, hx.once⟩
  · exact ⟨hx.whole, hx.once⟩
  · refine ⟨?_, ?_⟩
    · intro b hb
      rcases List.mem_append.mp hb with hb | hb
      · exact hx.whole b hb
      · rw [List.mem_singleton.mp hb]
        exact hwhole
    · have hhand : inHand { s with
          host := { s.host with dir := dir', queue := some q', fifo := s.host.fifo ++ [body] }
          landed := s.landed ++ [body] } = inHand s := h.inHand_snoc _ rfl rfl
      have honce := hx.once
      rw [← hhand] at honce
      exact honce

/-- A batch that is dealt with adds each of its lines once. -/
theorem Exact.send (hx : Exact d s) (h : Inv d s live) {sched : List (Answer ℓ)}
    (hsteady : Steady d s (.send sched)) (ht : Relay.step d s (.send sched) = some t) :
    Exact d t := by
  simp only [Relay.step] at ht
  split at ht
  · rename_i path body hturn
    obtain ⟨x, rest, rfl, rfl, rfl, hmem⟩ := h.loaded hturn
    split at ht
    · rename_i poison hout
      cases ht
      refine ⟨hx.whole, ?_⟩
      have hflat : [d.split x.2].flatten = d.split x.2 := by simp
      have hperm := perm_of_shipped hout (hflat.symm ▸ hx.whole x.2 hmem)
      rw [hflat] at hperm
      have honce := hx.once
      simp only [inHand, hturn, List.append_nil] at honce
      have hhand : s.host.fifo.take 1 = [x.2] := by
        rw [← h.fifo]
        rfl
      simp only [inHand, hhand, List.flatMap_append, List.flatMap_cons, List.flatMap_nil,
        List.append_nil]
      calc (s.acked ++ (sendLines d.blank sched [d.split x.2]).acked) ++ (s.rejected ++ poison)
        _ = s.acked ++ ((sendLines d.blank sched [d.split x.2]).acked ++ s.rejected)
              ++ poison := by simp only [List.append_assoc]
        List.Perm _ (s.acked ++ (s.rejected ++ (sendLines d.blank sched [d.split x.2]).acked)
              ++ poison) := (List.perm_append_comm.append_left _).append_right _
        _ = (s.acked ++ s.rejected)
              ++ ((sendLines d.blank sched [d.split x.2]).acked ++ poison) := by
            simp only [List.append_assoc]
        List.Perm _ (s.settled.flatMap d.split ++ d.split x.2) := honce.append hperm
    · rename_i e hout
      exact absurd hout (hsteady _ _ hturn e)
    · cases ht
  · cases ht

theorem Exact.pop (hx : Exact d s) (h : Inv d s live) (ht : Relay.step d s .pop = some t) :
    Exact d t := by
  simp only [Relay.step] at ht
  split at ht
  · rename_i path hturn
    obtain ⟨q, hq, rfl⟩ := Option.map_eq_some_iff.mp ht
    obtain ⟨x, rest, rfl, rfl, -⟩ := h.sentFront hturn
    rw [(h.running q hq).pop_front.1]
    have honce := hx.once
    simp only [inHand, hturn] at honce
    exact ⟨hx.whole, by simpa [Relay.removed, inHand] using honce⟩
  · cases ht

theorem Exact.step {e : Event β ℓ} (hx : Exact d s) (h : Inv d s live)
    (hsteady : Steady d s e) (ht : Relay.step d s e = some t) : Exact d t := by
  cases e with
  | «open» maxBytes =>
      obtain ⟨host, hhost, rfl⟩ := Option.map_eq_some_iff.mp ht
      rw [Host.step] at hhost
      split at hhost
      · cases hhost
      · rename_i hq
        cases hhost
        have hidle : s.turn = .idle := Classical.not_not.mp fun hne => h.working hne hq
        have honce := hx.once
        simp only [inHand, hidle] at honce
        exact ⟨hx.whole, honce⟩
  | openKilled swept =>
      obtain ⟨host, hhost, rfl⟩ := Option.map_eq_some_iff.mp ht
      rw [Host.step] at hhost
      split at hhost
      · cases hhost
      · cases hhost
        exact ⟨hx.whole, hx.once⟩
  | push body io => exact hx.push h hsteady ht
  | look =>
      simp only [Relay.step] at ht
      split at ht
      · rename_i hidle hq
        cases ht
        have honce := hx.once
        simp only [inHand, hidle] at honce
        split
        · exact hx
        · exact ⟨hx.whole, honce⟩
      · cases ht
  | load =>
      simp only [Relay.step] at ht
      split at ht
      · rename_i path hturn
        cases ht
        have honce := hx.once
        simp only [inHand, hturn] at honce
        split
        · exact ⟨hx.whole, honce⟩
        · exact ⟨hx.whole, honce⟩
      · cases ht
  | send sched => exact hx.send h hsteady ht
  | pop => exact hx.pop h ht
  | kill => exact hsteady.elim
  | pushKilled body at_ => exact hsteady.elim
  | sendKilled sched => exact hsteady.elim
  | popKilled removed => exact hsteady.elim

/-- **Without kills nothing is sent twice**: in every run in which nobody is killed and no batch
is given up, what the server accepted and what it rejected are together the lines of the bodies
sent, each as often as it was pushed. -/
theorem accepted_once (d : Drainer β ℓ) {es : List (Event β ℓ)} {s : Relay β ℓ}
    (hok : Meets (Relay.step d) (fun s e => Sequenced s e ∧ Steady d s e) Relay.empty es)
    (hr : Lib.run (Relay.step d) Relay.empty es = some s) :
    (s.acked ++ s.rejected).Perm ((s.settled ++ inHand s).flatMap d.split)
      ∧ ∃ waiting, s.landed = s.settled ++ waiting ∧ inHand s <+: waiting := by
  have hinv : (∃ live, Inv d s live) ∧ Exact d s :=
    run_invariant (I := fun s => (∃ live, Inv d s live) ∧ Exact d s)
      (fun _ _ _ ⟨⟨_, h⟩, hx⟩ hok hs => ⟨h.step hok.1 hs, hx.step h hok.2 hs⟩)
      ⟨⟨[], Inv.empty⟩, Exact.empty⟩ hok hr
  obtain ⟨⟨live, h⟩, hx⟩ := hinv
  refine ⟨hx.once, s.host.fifo, h.order, ?_⟩
  rw [inHand]
  split
  · exact List.take_prefix _ _
  · exact List.nil_prefix

/-- Three records in one body; the server cannot parse the second. -/
def threeRecords : Text := "m a=1 1\nm a=x 2\nm a=3 3\n".toList

/-- Answers 400 to a request with that record, and 204 to the others. -/
def refusesOne : Answer Text := fun chunk =>
  .status (if chunk.contains "m a=x 2\n".toList then 400 else 204) none ""

/-- Two pushes come while the first segment is under way; the last is still queued. -/
def pushedMeanwhile : List (Event Text Text) :=
  [.open 100, .push threeRecords .ok, .look, .push "m a=4 4\n".toList .ok, .load,
    .send (List.replicate 5 refusesOne), .push "m a=5 5\n".toList .ok, .pop, .look, .load,
    .send [refusesOne]]

theorem accepted_once_pushedMeanwhile :
    ∃ s, Lib.run (Relay.step Otlp.drain) Relay.empty pushedMeanwhile = some s
      ∧ s.acked = ["m a=1 1\n".toList, "m a=3 3\n".toList, "m a=4 4\n".toList]
      ∧ s.rejected = ["m a=x 2\n".toList]
      ∧ (s.acked ++ s.rejected).Perm ((s.settled ++ inHand s).flatMap Otlp.drain.split)
      ∧ ∃ waiting, s.landed = s.settled ++ waiting ∧ inHand s <+: waiting := by
  have hrun : ∃ s, Lib.run (Relay.step Otlp.drain) Relay.empty pushedMeanwhile = some s
      ∧ s.acked = ["m a=1 1\n".toList, "m a=3 3\n".toList, "m a=4 4\n".toList]
      ∧ s.rejected = ["m a=x 2\n".toList] :=
    ⟨_, rfl, by decide +kernel, by decide +kernel⟩
  obtain ⟨s, hrun, hacked, hrejected⟩ := hrun
  exact ⟨s, hrun, hacked, hrejected,
    @accepted_once _ _ Otlp.drain pushedMeanwhile s (by decide +kernel) hrun⟩

end Relay

end Tributary
