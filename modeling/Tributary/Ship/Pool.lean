import Mathlib.Data.List.DropRight
import Tributary.Ship
import Tributary.Text

/-!
# The connection pool

A client pools its connections, and a pool may be pinned to the wrong peer. `send` builds a new
client when a peer says that it has no write path, and on every third failure in a row that says
nothing of the peer. The count of those failures does not know of clients.
-/

namespace Tributary.Ship

/-! ## The shipper -/

/-- `Counters`, those that `send` writes. -/
structure Counters where
  shipped : Nat
  rejected : Nat
  unauthorized : Nat
  requests : Nat
  shipNs : Nat
  transportStreak : Nat
  transportRebuilds : Nat
deriving DecidableEq, Repr

/-- The live client, by its number, and the clients built so far. -/
structure Shipper where
  client : Nat
  built : Nat
  counters : Counters
deriving DecidableEq, Repr

/-- How many consecutive transport failures trigger a pool rebuild. -/
def REBUILD_AFTER : Nat := 3

namespace Shipper

def new : Shipper := { client := 0, built := 1, counters := ⟨0, 0, 0, 0, 0, 0, 0⟩ }

/-- `rebuild_transport`; a rebuild that fails keeps the client. -/
def rebuildTransport (s : Shipper) (rebuilt : Bool) : Shipper :=
  if rebuilt then
    { client := s.built
      built := s.built + 1
      counters :=
        { s.counters with
          transportStreak := 0, transportRebuilds := s.counters.transportRebuilds + 1 } }
  else s

def noteWritePathAnswered (s : Shipper) : Shipper :=
  { s with counters := { s.counters with transportStreak := 0 } }

def noteTransportFailure (s : Shipper) (rebuilt : Bool) : Shipper :=
  let streak := s.counters.transportStreak + 1
  let s := { s with counters := { s.counters with transportStreak := streak } }
  if streak % REBUILD_AFTER = 0 then s.rebuildTransport rebuilt else s

/-- The status of an answer, noted. -/
def noteStatus (s : Shipper) (body : Text) (rebuilt : Bool) (code : Nat) : Shipper :=
  if code = 204 then
    let s := s.noteWritePathAnswered
    { s with counters := { s.counters with shipped := s.counters.shipped + body.lines.length } }
  else if code = 429 then s.noteWritePathAnswered
  else if code = 400 then
    let s := s.noteWritePathAnswered
    { s with counters := { s.counters with rejected := s.counters.rejected + 1 } }
  else if code = 401 ∨ code = 403 then
    let s := s.noteWritePathAnswered
    { s with counters := { s.counters with unauthorized := s.counters.unauthorized + 1 } }
  else if code = 501 then s.rebuildTransport rebuilt
  else s.noteTransportFailure rebuilt

/-- `send`, when this comes back after `elapsed` nanoseconds; an empty body is no request. -/
def send (s : Shipper) (body : Text) (rebuilt : Bool) (elapsed : Nat) (reply : Reply) :
    Except ShipError Unit × Shipper :=
  if body = [] then (.ok (), s)
  else
    match reply with
    | .wire _ => (result reply, s.noteTransportFailure rebuilt)
    | .status code _ _ =>
        let s := s.noteStatus body rebuilt code
        (result reply,
          { s with
            counters :=
              { s.counters with
                shipNs := s.counters.shipNs + elapsed, requests := s.counters.requests + 1 } })

end Shipper

/-! ## What a client sees -/

/-- A transport-class failure: no answer, or a status that says nothing of the peer. -/
def Reply.isFailure : Reply → Bool
  | .wire _ => true
  | .status code _ _ => code ∉ [204, 429, 400, 401, 403, 501]

/-- The peer has no write path. -/
def Reply.isWrongNode : Reply → Bool
  | .wire _ => false
  | .status code _ _ => code = 501

/-- A call of `send`. -/
structure Call where
  body : Text
  /-- a rebuild would succeed -/
  rebuilt : Bool
  elapsed : Nat
  reply : Reply
deriving DecidableEq, Repr

structure History where
  shipper : Shipper
  /-- the requests so far, each with the client it went over -/
  seen : List (Nat × Reply)
  /-- the clients that were replaced -/
  shed : List Nat
deriving DecidableEq, Repr

namespace History

def start : History := { shipper := .new, seen := [], shed := [] }

/-- One call, on the client that is live. -/
def call (h : History) (c : Call) : History :=
  if c.body = [] then h
  else
    let s := (h.shipper.send c.body c.rebuilt c.elapsed c.reply).2
    { shipper := s
      seen := h.seen ++ [(h.shipper.client, c.reply)]
      shed := if s.client = h.shipper.client then h.shed else h.shed ++ [h.shipper.client] }

def after (calls : List Call) : History := calls.foldl call start

/-- What came back on a client. -/
def view (h : History) (c : Nat) : List Reply := (h.seen.filter (·.1 = c)).map Prod.snd

end History

/-- The failures a client ends with. -/
def streak (rs : List Reply) : List Reply := rs.rtakeWhile Reply.isFailure

/-- A pool is shed in time, and only then. -/
structure ShedInTime (h : History) : Prop where
  /-- no client sees more than three failures in a row -/
  bounded : ∀ c rs, rs <:+: h.view c → rs.all Reply.isFailure = true → rs.length ≤ 3
  /-- a client that is answered with 501 is used no more -/
  ended : ∀ pre c r post, h.seen = pre ++ (c, r) :: post → r.isWrongNode = true →
    h.shipper.client ≠ c ∧ ∀ x ∈ post, x.1 ≠ c
  /-- a client is replaced on a 501 or its third failure in a row -/
  cause : ∀ c ∈ h.shed, ∃ rs r, h.view c = rs ++ [r] ∧
    (r.isWrongNode = true ∨ r.isFailure = true ∧ (streak (h.view c)).length = 3)
  /-- and on every one -/
  due : ∀ c, (∃ r ∈ h.view c, r.isWrongNode = true) ∨
    (∃ rs, rs <:+: h.view c ∧ rs.all Reply.isFailure = true ∧ rs.length = 3) → c ∈ h.shed
  counted : h.shipper.counters.transportRebuilds = h.shed.length

/-! ## One call -/

variable {s : Shipper} {c : Call} {h : History} {rs v : List Reply} {r : Reply}

/-- A new client, with the failures counted anew. -/
def Shipper.Replaces (s s' : Shipper) : Prop :=
  s'.client = s.built ∧ s'.built = s.built + 1 ∧ s'.counters.transportStreak = 0 ∧
    s'.counters.transportRebuilds = s.counters.transportRebuilds + 1

/-- The client stays. -/
def Shipper.Keeps (s s' : Shipper) (streak : Nat) : Prop :=
  s'.client = s.client ∧ s'.built = s.built ∧ s'.counters.transportStreak = streak ∧
    s'.counters.transportRebuilds = s.counters.transportRebuilds

theorem replaces_rebuildTransport (s : Shipper) : s.Replaces (s.rebuildTransport true) :=
  ⟨rfl, rfl, rfl, rfl⟩

theorem noteTransportFailure_cases (s : Shipper) :
    ((s.counters.transportStreak + 1) % 3 = 0 ∧ s.Replaces (s.noteTransportFailure true)) ∨
      ((s.counters.transportStreak + 1) % 3 ≠ 0 ∧
        s.Keeps (s.noteTransportFailure true) (s.counters.transportStreak + 1)) := by
  unfold Shipper.noteTransportFailure REBUILD_AFTER
  by_cases hthird : (s.counters.transportStreak + 1) % 3 = 0
  · refine .inl ⟨hthird, ?_⟩
    simp only [if_pos hthird]
    exact ⟨rfl, rfl, rfl, rfl⟩
  · refine .inr ⟨hthird, ?_⟩
    simp only [if_neg hthird]
    exact ⟨rfl, rfl, rfl, rfl⟩

/-- **What an answer does to the client**, whichever client it came on. -/
theorem send_cases (s : Shipper) (hbody : c.body ≠ []) (hrebuilt : c.rebuilt = true) :
    let s' := (s.send c.body c.rebuilt c.elapsed c.reply).2
    (c.reply.isWrongNode = true ∧ s.Replaces s') ∨
      (c.reply.isFailure = true ∧ (s.counters.transportStreak + 1) % 3 = 0 ∧ s.Replaces s') ∨
      (c.reply.isFailure = true ∧ (s.counters.transportStreak + 1) % 3 ≠ 0 ∧
        s.Keeps s' (s.counters.transportStreak + 1)) ∨
      (c.reply.isFailure = false ∧ c.reply.isWrongNode = false ∧ s.Keeps s' 0) := by
  obtain ⟨body, rebuilt, elapsed, reply⟩ := c
  simp only at hbody hrebuilt
  subst hrebuilt
  simp only [Shipper.send, if_neg hbody]
  have hfailure := noteTransportFailure_cases s
  cases reply with
  | wire error =>
      rcases hfailure with ⟨hthird, hs⟩ | ⟨hthird, hs⟩
      · exact .inr (.inl ⟨rfl, hthird, hs⟩)
      · exact .inr (.inr (.inl ⟨rfl, hthird, hs⟩))
  | status code retryAfter text =>
      unfold Shipper.noteStatus
      by_cases h204 : code = 204
      · exact .inr (.inr (.inr ⟨by simp [Reply.isFailure, h204], by simp [Reply.isWrongNode, h204],
          by simp [h204, Shipper.Keeps, Shipper.noteWritePathAnswered]⟩))
      by_cases h429 : code = 429
      · exact .inr (.inr (.inr ⟨by simp [Reply.isFailure, h429], by simp [Reply.isWrongNode, h429],
          by simp [h429, Shipper.Keeps, Shipper.noteWritePathAnswered]⟩))
      by_cases h400 : code = 400
      · exact .inr (.inr (.inr ⟨by simp [Reply.isFailure, h400], by simp [Reply.isWrongNode, h400],
          by simp [h400, Shipper.Keeps, Shipper.noteWritePathAnswered]⟩))
      by_cases hauth : code = 401 ∨ code = 403
      · refine .inr (.inr (.inr ⟨?_, ?_, ?_⟩))
        · rcases hauth with rfl | rfl <;> rfl
        · rcases hauth with rfl | rfl <;> rfl
        · simp only [if_neg h204, if_neg h429, if_neg h400, if_pos hauth]
          exact ⟨rfl, rfl, rfl, rfl⟩
      by_cases h501 : code = 501
      · refine .inl ⟨by simp [Reply.isWrongNode, h501], ?_⟩
        simp only [h501]
        exact replaces_rebuildTransport s
      have hunknown : (Reply.status code retryAfter text).isFailure = true := by
        have := not_or.mp hauth
        simp [Reply.isFailure, *]
      simp only [if_neg h204, if_neg h429, if_neg h400, if_neg hauth, if_neg h501]
      rcases hfailure with ⟨hthird, hs⟩ | ⟨hthird, hs⟩
      · exact .inr (.inl ⟨hunknown, hthird, hs⟩)
      · exact .inr (.inr (.inl ⟨hunknown, hthird, hs⟩))

/-! ## Failures in a row -/

theorem streak_failure (v : List Reply) : (streak v).all Reply.isFailure = true :=
  List.all_eq_true.mpr fun _ hr => List.mem_rtakeWhile_imp hr

/-- The failures at the end are the most that end there. -/
theorem length_le_streak (hsuffix : rs <:+ v) (hall : rs.all Reply.isFailure = true) :
    rs.length ≤ (streak v).length := by
  induction v using List.reverseRecOn generalizing rs with
  | nil => simp [List.suffix_nil.mp hsuffix]
  | append_singleton v r ih =>
      rcases List.suffix_concat_iff.mp hsuffix with rfl | ⟨rs, rfl, hrs⟩
      · exact Nat.zero_le _
      · rw [List.all_append, Bool.and_eq_true, List.all_cons, List.all_nil, Bool.and_true] at hall
        rw [streak, List.rtakeWhile_concat_pos _ _ _ hall.2, List.length_append,
          List.length_append]
        exact Nat.add_le_add_right (ih hrs hall.1) 1

/-- What a client in use has seen: not yet what ends it. -/
structure Calm (v : List Reply) : Prop where
  writable : ∀ r ∈ v, r.isWrongNode = false
  short : ∀ rs, rs <:+: v → rs.all Reply.isFailure = true → rs.length ≤ 2

/-- What a client that was replaced has seen. -/
def Spent (v : List Reply) : Prop :=
  ∃ rs r, v = rs ++ [r] ∧ Calm rs ∧
    (r.isWrongNode = true ∨ r.isFailure = true ∧ (streak rs).length = 2)

theorem Calm.nil : Calm [] :=
  ⟨fun r hr => absurd hr List.not_mem_nil, fun rs hrs _ => by simp [List.infix_nil.mp hrs]⟩

theorem Calm.streak_le (h : Calm v) : (streak v).length ≤ 2 :=
  h.short _ (List.rtakeWhile_suffix _ _).isInfix (streak_failure v)

theorem Calm.concat (h : Calm v) (hwrong : r.isWrongNode = false)
    (hfailure : r.isFailure = true → (streak v).length ≤ 1) : Calm (v ++ [r]) := by
  constructor
  · intro r' hr'
    rcases List.mem_append.mp hr' with hr' | hr'
    · exact h.writable r' hr'
    · exact List.mem_singleton.mp hr' ▸ hwrong
  · intro rs hrs hall
    rcases List.infix_concat_iff.mp hrs with hsuffix | hrs
    · rcases List.suffix_concat_iff.mp hsuffix with rfl | ⟨before, rfl, hbefore⟩
      · exact Nat.zero_le _
      · rw [List.all_append, Bool.and_eq_true, List.all_cons, List.all_nil, Bool.and_true] at hall
        have hle := length_le_streak hbefore hall.1
        have := hfailure hall.2
        rw [List.length_append, List.length_singleton]
        omega
    · exact h.short rs hrs hall

theorem Spent.bounded (h : Spent v) (hrs : rs <:+: v) (hall : rs.all Reply.isFailure = true) :
    rs.length ≤ 3 := by
  obtain ⟨w, r, rfl, hcalm, -⟩ := h
  rcases List.infix_concat_iff.mp hrs with hsuffix | hrs
  · rcases List.suffix_concat_iff.mp hsuffix with rfl | ⟨before, rfl, hbefore⟩
    · exact Nat.zero_le _
    · rw [List.all_append, Bool.and_eq_true] at hall
      have hle := length_le_streak hbefore hall.1
      have := hcalm.streak_le
      rw [List.length_append, List.length_singleton]
      omega
  · exact (hcalm.short rs hrs hall).trans (by decide)

/-! ## The law -/

/-- What carries the law: the streak is that of the live client. -/
structure Inv (h : History) : Prop where
  fresh : h.shipper.client < h.shipper.built
  seen : ∀ x ∈ h.seen, x.1 < h.shipper.built
  shed : ∀ c ∈ h.shed, c < h.shipper.built
  live : h.shipper.client ∉ h.shed
  calm : Calm (h.view h.shipper.client)
  streak : (streak (h.view h.shipper.client)).length = h.shipper.counters.transportStreak
  spent : ∀ c, c ≠ h.shipper.client →
    h.view c = [] ∧ c ∉ h.shed ∨ c ∈ h.shed ∧ Spent (h.view c)
  counted : h.shipper.counters.transportRebuilds = h.shed.length

theorem Inv.start : Inv .start where
  fresh := by decide
  seen x hx := absurd hx List.not_mem_nil
  shed c hc := absurd hc List.not_mem_nil
  live := List.not_mem_nil
  calm := .nil
  streak := rfl
  spent c _ := .inl ⟨rfl, List.not_mem_nil⟩
  counted := rfl

/-- The view of a client after one more request. -/
theorem view_concat (seen : List (Nat × Reply)) (s : Shipper) (shed : List Nat) (i c : Nat)
    (r : Reply) :
    History.view { shipper := s, seen := seen ++ [(i, r)], shed } c
      = History.view { shipper := s, seen, shed } c ++ if i = c then [r] else [] := by
  unfold History.view
  rw [List.filter_append, List.map_append]
  congr 1
  split <;> simp [*]

/-- The history after a request on the live client. -/
def History.next (h : History) (s : Shipper) (r : Reply) (shed : List Nat) : History :=
  { shipper := s, seen := h.seen ++ [(h.shipper.client, r)], shed }

theorem view_next_live (h : History) (s : Shipper) (r : Reply) (shed : List Nat) :
    (h.next s r shed).view h.shipper.client = h.view h.shipper.client ++ [r] := by
  rw [History.next, view_concat, if_pos rfl]
  rfl

theorem view_next_ne {i : Nat} (hi : i ≠ h.shipper.client) (s : Shipper) (r : Reply)
    (shed : List Nat) : (h.next s r shed).view i = h.view i := by
  rw [History.next, view_concat, if_neg (Ne.symm hi), List.append_nil]
  rfl

theorem mem_seen_next {s : Shipper} {shed : List Nat} {x : Nat × Reply}
    (hx : x ∈ (h.next s r shed).seen) : x ∈ h.seen ∨ x.1 = h.shipper.client := by
  rcases List.mem_append.mp hx with hx | hx
  · exact .inl hx
  · exact .inr (List.mem_singleton.mp hx ▸ rfl)

/-- An answer on which the client stays. -/
theorem Inv.keeps {s' : Shipper} {n : Nat} (hinv : Inv h) (hs : h.shipper.Keeps s' n)
    (hcalm : Calm (h.view h.shipper.client ++ [r]))
    (hstreak : (Ship.streak (h.view h.shipper.client ++ [r])).length = n) :
    Inv (h.next s' r h.shed) := by
  obtain ⟨hclient, hbuilt, hn, hrebuilds⟩ := hs
  have hlive : (h.next s' r h.shed).shipper.client = h.shipper.client := hclient
  constructor
  · change s'.client < s'.built
    rw [hclient, hbuilt]
    exact hinv.fresh
  · intro x hx
    change x.1 < s'.built
    rw [hbuilt]
    rcases mem_seen_next hx with hx | hx
    · exact hinv.seen x hx
    · exact hx ▸ hinv.fresh
  · intro i hi
    change i < s'.built
    rw [hbuilt]
    exact hinv.shed i hi
  · rw [hlive]
    exact hinv.live
  · rw [hlive, view_next_live]
    exact hcalm
  · rw [hlive, view_next_live, hstreak]
    exact hn.symm
  · intro i hi
    rw [hlive] at hi
    rw [view_next_ne hi]
    exact hinv.spent i hi
  · exact hrebuilds.trans hinv.counted

/-- An answer on which it is replaced. -/
theorem Inv.replaces {s' : Shipper} (hinv : Inv h) (hs : h.shipper.Replaces s')
    (hspent : Spent (h.view h.shipper.client ++ [r])) :
    Inv (h.next s' r (h.shed ++ [h.shipper.client])) := by
  obtain ⟨hclient, hbuilt, hn, hrebuilds⟩ := hs
  have hne : s'.client ≠ h.shipper.client := by
    have := hinv.fresh
    omega
  have hview : (h.next s' r (h.shed ++ [h.shipper.client])).view s'.client = [] := by
    rw [view_next_ne hne, History.view, List.map_eq_nil_iff, List.filter_eq_nil_iff]
    intro x hx
    have := hinv.seen x hx
    simp only [decide_eq_true_eq]
    omega
  constructor
  · change s'.client < s'.built
    omega
  · intro x hx
    change x.1 < s'.built
    rcases mem_seen_next hx with hx | hx
    · have := hinv.seen x hx
      omega
    · have := hinv.fresh
      omega
  · intro i hi
    change i < s'.built
    rcases List.mem_append.mp hi with hi | hi
    · have := hinv.shed i hi
      omega
    · have := hinv.fresh
      rw [List.mem_singleton.mp hi]
      omega
  · intro hmem
    rcases List.mem_append.mp hmem with hmem | hmem
    · have := hinv.shed _ hmem
      change s'.client < _ at this
      omega
    · exact hne (List.mem_singleton.mp hmem)
  · change Calm (History.view _ s'.client)
    rw [hview]
    exact .nil
  · change (Ship.streak (History.view _ s'.client)).length = _
    rw [hview]
    exact hn.symm
  · intro i hi
    by_cases hlive : i = h.shipper.client
    · subst hlive
      rw [view_next_live]
      exact .inr ⟨List.mem_append_right _ (List.mem_singleton_self _), hspent⟩
    · rw [view_next_ne hlive]
      refine (hinv.spent i hlive).imp (fun hold => ⟨hold.1, fun hmem => ?_⟩)
        fun hold => ⟨List.mem_append_left _ hold.1, hold.2⟩
      rcases List.mem_append.mp hmem with hmem | hmem
      · exact hold.2 hmem
      · exact hlive (List.mem_singleton.mp hmem)
  · change s'.counters.transportRebuilds = (h.shed ++ [h.shipper.client]).length
    rw [hrebuilds, hinv.counted, List.length_append, List.length_singleton]

/-- One call keeps the invariant. -/
theorem Inv.call (hinv : Inv h) (hrebuilt : c.rebuilt = true) : Inv (h.call c) := by
  by_cases hbody : c.body = []
  · rw [History.call, if_pos hbody]
    exact hinv
  have hcall : ∀ s', (h.shipper.send c.body c.rebuilt c.elapsed c.reply).2 = s' →
      h.call c = h.next s' c.reply (if s'.client = h.shipper.client then h.shed
        else h.shed ++ [h.shipper.client]) := by
    rintro s' rfl
    rw [History.call, if_neg hbody]
    rfl
  have hreplaced : ∀ s', h.shipper.Replaces s' → s'.client ≠ h.shipper.client := by
    intro s' hs
    have := hs.1
    have := hinv.fresh
    omega
  have hshort := hinv.calm.streak_le
  rw [hinv.streak] at hshort
  have hcases := send_cases h.shipper hbody hrebuilt
  rw [hcall _ rfl]
  rcases hcases with ⟨hwrong, hs⟩ | ⟨hfailure, hthird, hs⟩ | ⟨hfailure, hearly, hs⟩ |
    ⟨hfailure, hwrong, hs⟩
  · rw [if_neg (hreplaced _ hs)]
    exact hinv.replaces hs ⟨_, _, rfl, hinv.calm, .inl hwrong⟩
  · rw [if_neg (hreplaced _ hs)]
    refine hinv.replaces hs ⟨_, _, rfl, hinv.calm, .inr ⟨hfailure, ?_⟩⟩
    rw [hinv.streak]
    omega
  · rw [if_pos hs.1]
    have hwrong : c.reply.isWrongNode = false := by
      cases hreply : c.reply with
      | wire error => rfl
      | status code retryAfter text =>
          rw [hreply] at hfailure
          simp only [Reply.isFailure, decide_eq_true_eq, List.mem_cons, not_or] at hfailure
          simp [Reply.isWrongNode, hfailure]
    refine hinv.keeps hs (hinv.calm.concat hwrong fun _ => ?_) ?_
    · rw [hinv.streak]
      omega
    · rw [Ship.streak, List.rtakeWhile_concat_pos _ _ _ hfailure, List.length_append,
        List.length_singleton, ← Ship.streak, hinv.streak]
  · rw [if_pos hs.1]
    have hnone : ¬ c.reply.isFailure = true := by simp [hfailure]
    refine hinv.keeps hs (hinv.calm.concat hwrong fun h => absurd h hnone) ?_
    rw [Ship.streak, List.rtakeWhile_concat_neg _ _ _ hnone, List.length_nil]

theorem Inv.after {calls : List Call} (hrebuilt : ∀ c ∈ calls, c.rebuilt = true) :
    Inv (.after calls) := by
  induction calls using List.reverseRecOn with
  | nil => exact .start
  | append_singleton calls c ih =>
      rw [History.after, List.foldl_concat]
      exact (ih fun c hc => hrebuilt c (List.mem_append_left _ hc)).call (hrebuilt c (by simp))

/-- Every client is live, or spent, or was never used. -/
theorem Inv.view_cases (hinv : Inv h) (i : Nat) :
    (i ∉ h.shed ∧ Calm (h.view i)) ∨ (i ∈ h.shed ∧ Spent (h.view i)) := by
  by_cases hi : i = h.shipper.client
  · exact .inl ⟨hi ▸ hinv.live, hi ▸ hinv.calm⟩
  · rcases hinv.spent i hi with ⟨hnil, hshed⟩ | hspent
    · exact .inl ⟨hshed, hnil ▸ .nil⟩
    · exact .inr hspent

/-- **Pools are shed in time and only then**: along any calls, one after another, whose rebuilds
succeed. -/
theorem shed_in_time {calls : List Call} (hrebuilt : ∀ c ∈ calls, c.rebuilt = true) :
    ShedInTime (.after calls) := by
  have hinv := Inv.after hrebuilt
  generalize History.after calls = h at hinv
  constructor
  · intro i rs hrs hall
    rcases hinv.view_cases i with ⟨-, hcalm⟩ | ⟨-, hspent⟩
    · exact (hcalm.short rs hrs hall).trans (by decide)
    · exact hspent.bounded hrs hall
  · intro pre i r post hseen hwrong
    have hview : h.view i = (pre.filter (·.1 = i)).map Prod.snd
        ++ r :: (post.filter (·.1 = i)).map Prod.snd := by
      rw [History.view, hseen, List.filter_append, List.map_append, List.filter_cons_of_pos (by simp)]
      rfl
    rcases hinv.view_cases i with ⟨-, hcalm⟩ | ⟨hshed, rs, r', hspent, hcalm, -⟩
    · have hfalse := hcalm.writable r (by rw [hview]; simp)
      rw [hwrong] at hfalse
      cases hfalse
    · refine ⟨fun hlive => hinv.live (hlive ▸ hshed), fun x hx hxi => ?_⟩
      -- nothing but the last answer of a spent client says that
      have hnil : (post.filter (·.1 = i)).map Prod.snd = [] := by
        rcases List.eq_nil_or_concat ((post.filter (·.1 = i)).map Prod.snd) with hnil | ⟨w, y, hw⟩
        · exact hnil
        · rw [hw, hspent, List.concat_eq_append, ← List.cons_append, ← List.append_assoc] at hview
          have hrs := (List.append_inj' hview rfl).1
          have hfalse := hcalm.writable r (by rw [hrs]; simp)
          rw [hwrong] at hfalse
          cases hfalse
      rw [List.map_eq_nil_iff, List.filter_eq_nil_iff] at hnil
      exact hnil x hx (by simpa using hxi)
  · intro i hi
    rcases hinv.view_cases i with ⟨hnot, -⟩ | ⟨-, rs, r, hview, hcalm, hcause⟩
    · exact absurd hi hnot
    · refine ⟨rs, r, hview, hcause.imp id fun hthird => ⟨hthird.1, ?_⟩⟩
      rw [hview, streak, List.rtakeWhile_concat_pos _ _ _ hthird.1, List.length_append,
        List.length_singleton, ← streak, hthird.2]
  · intro i hdue
    rcases hinv.view_cases i with ⟨-, hcalm⟩ | ⟨hshed, -⟩
    · exfalso
      rcases hdue with ⟨r, hr, hwrong⟩ | ⟨rs, hrs, hall, hlength⟩
      · rw [hcalm.writable r hr] at hwrong
        cases hwrong
      · have := hcalm.short rs hrs hall
        omega
    · exact hshed
  · exact hinv.counted

/-- A peer that answers with these statuses. -/
def scriptedPeer (codes : List Nat) : List Call :=
  codes.map fun code =>
    { body := "t v=1i 1".toList, rebuilt := true, elapsed := 0, reply := .status code none "" }

theorem shed_twice :
    (History.after (scriptedPeer [404, 204, 404, 404, 404, 501, 404])).shed = [0, 1] ∧
      ShedInTime (.after (scriptedPeer [404, 204, 404, 404, 404, 501, 404])) :=
  ⟨by decide, shed_in_time (by decide)⟩

end Tributary.Ship
