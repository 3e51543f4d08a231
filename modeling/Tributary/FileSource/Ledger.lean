import Tributary.FileSource.Custody
import Tributary.Lib.Run

/-!
# Every line handed out is accounted for

A source line is in the framer, was dropped, has an entry in the dead-letter
file, or is in a record; and a record is in one of the places of `Custody`. What
shutdown passes over is the one exception, and `Unframes` excludes it.
-/

namespace Tributary.FileSource

open Lib Queue Ship Stamp Tail Map Transform

variable {c : Config} {s s' : State} {l : Line}

/-- A source line that is past the framer. -/
def State.Accounted (s : State) (i : Nat) : Prop :=
  i ∈ s.dropped ∨ (∃ d ∈ s.deadLetter, i ∈ d.ids) ∨ ∃ l ∈ s.made, i ∈ l.ids

/-- A record with a text is somewhere, or is done. -/
def State.Placed (s : State) (l : Line) : Prop :=
  s.Done l ∨ blank l = false ∧ (s.InMemory l ∨ InSegment s.dir l)

/-- Every line handed out is accounted for, still in the framer, or at hand. -/
def State.Known (s : State) (ids : List Nat) : Prop :=
  ∀ i < s.read, i ∈ ids ∨ i ∈ s.framer.ids ∨ s.Accounted i

/-- What every state of a run satisfies in which shutdown passes over nothing. A
source that stopped has no memory left. -/
structure Ledger (s : State) : Prop where
  known : s.Known []
  placed : s.phase ≠ .stopped → ∀ l ∈ s.made, s.Placed l

theorem Moves.placed (h : Moves s s') (hl : s.Placed l) : s'.Placed l := by
  rcases hl with hd | ⟨hb, hm | hseg⟩
  · exact .inl (h.done hd)
  · rcases h.memory l hb hm with hm | hseg | hd
    · exact .inr ⟨hb, .inl hm⟩
    · exact .inr ⟨hb, .inr hseg⟩
    · exact .inl hd
  · rcases h.disk l hb hseg with hseg | hd
    · exact .inr ⟨hb, .inr hseg⟩
    · exact .inl hd

theorem Durable.accounted (h : Durable s s') (hmade : s.made ⊆ s'.made) {i : Nat}
    (hi : s.Accounted i) : s'.Accounted i := by
  rcases hi with hi | ⟨d, hd, hi⟩ | ⟨l, hl, hi⟩
  · exact .inl (h.dropped i hi)
  · exact .inr (.inl ⟨d, h.dead d hd, hi⟩)
  · exact .inr (.inr ⟨l, hmade hl, hi⟩)

/-! ## Steps that hand out nothing and build nothing -/

/-- Three things only the read loop and the framer's end change. -/
structure Same (s s' : State) : Prop where
  framer : s'.framer = s.framer
  made : s'.made = s.made
  read : s'.read = s.read

theorem Quiet.same (h : Quiet s s') : Same s s' := ⟨h.framer, h.made, h.read⟩

theorem Same.trans {s'' : State} (h : Same s s') (h' : Same s' s'') : Same s s'' :=
  ⟨h'.framer.trans h.framer, h'.made.trans h.made, h'.read.trans h.read⟩

theorem Same.leaveDrain (h : Same s s') (final : Bool) : Same s (s'.leaveDrain final) :=
  h.trans (still_leaveDrain s' final).toQuiet.same

theorem Same.afterFlush (h : Same s s') (after : After) : Same s (s'.afterFlush after) :=
  h.trans (still_afterFlush s' after).toQuiet.same

/-- The events that take a line further than the framer. -/
def Event.feeds : Event → Bool
  | .next .. | .expire .. | .unframe .. => true
  | _ => false

theorem step_same {e : Event} (hcore : Core s) (h : step c s e = some s')
    (he : e.feeds = false) : Same s s' := by
  by_cases hhandles : e.handles = false
  · exact (step_quiet h hhandles).same
  obtain ⟨live, hst⟩ := hcore.stored
  unfold step at h
  split at h
  · cases h
  cases e with
  | finish i sched =>
      obtain ⟨lines, acked, t, -, -, -, rfl⟩ := finish_cases h
      exact ⟨rfl, rfl, rfl⟩
  | land io sched =>
      obtain ⟨drained, final, body, rest, -, -, hlanded⟩ := land_cases hst h
      cases hlanded with
      | spooled => exact ⟨rfl, rfl, rfl⟩
      | shipped => exact ⟨rfl, rfl, rfl⟩
      | kept at_ e acked =>
          refine Same.leaveDrain ?_ final
          exact ⟨rfl, rfl, rfl⟩
      | stopped => exact ⟨rfl, rfl, rfl⟩
  | ship sched =>
      obtain ⟨drained, final, x, rest, -, -, -, ⟨acked, poison, -, rfl⟩ | ⟨acked, rfl⟩⟩ :=
        ship_cases hst h
      · exact ⟨rfl, rfl, rfl⟩
      · refine Same.leaveDrain ?_ final
        exact ⟨rfl, rfl, rfl⟩
  | submit =>
      obtain ⟨after, -, ⟨-, rfl⟩ | ⟨-, rfl⟩⟩ := submit_cases h
      · refine Same.afterFlush ?_ after
        exact ⟨rfl, rfl, rfl⟩
      · refine Same.afterFlush ?_ after
        exact ⟨rfl, rfl, rfl⟩
  | reap i io forcedIo =>
      obtain ⟨task, -, hreaped⟩ := reap_cases hst h
      cases hreaped <;> exact ⟨rfl, rfl, rfl⟩
  | next nowNs nowMs => cases he
  | expire nowNs nowMs order => cases he
  | unframe nowNs order => cases he
  | _ => exact absurd rfl hhandles

/-! ## Every line is known -/

theorem State.Known.same {ids : List Nat} (h : s.Known ids) (hsame : Same s s')
    (hdurable : Durable s s') : s'.Known ids := by
  intro i hi
  rw [hsame.read] at hi
  rw [hsame.framer]
  exact (h i hi).imp_right fun h => h.imp_right
    (hdurable.accounted (by rw [hsame.made]; exact List.Subset.refl _))

theorem State.Known.go {ids : List Nat} (h : s.Known ids) (phase : Phase) :
    (s.go phase).Known ids :=
  h.same (still_go s phase).toQuiet.same (still_go s phase).toQuiet.moves.toDurable

/-- What the framer did not keep it gave out. -/
theorem State.Known.fed {framer : Framer} {ids : List Nat} {out : Option Chunk} (h : s.Known ids)
    (hc : Conserves (s.framer.ids ++ ids) framer.ids out)
    (hframe : s'.framer = framer ∧ s'.read = s.read) (hmade : s'.made = s.made)
    (hm : Durable s s') : s'.Known (out.elim [] Chunk.ids) := by
  intro i hi
  rw [hframe.2] at hi
  rw [hframe.1]
  have hgive : i ∈ s.framer.ids ++ ids →
      i ∈ out.elim [] Chunk.ids ∨ i ∈ framer.ids ∨ s'.Accounted i := by
    intro hmem
    rcases (hc i).mp hmem with hkept | ⟨record, hout, hrecord⟩
    · exact .inr (.inl hkept)
    · cases Option.mem_def.mp hout
      exact .inl hrecord
  rcases h i hi with hid | hid | hacc
  · exact hgive (List.mem_append_right _ hid)
  · exact hgive (List.mem_append_left _ hid)
  · exact .inr (.inr (hm.accounted (by rw [hmade]; exact List.Subset.refl _) hacc))

/-- A record that was taken is accounted for. -/
theorem Took.known {line : Chunk} {built : Except String Built} (ht : Took s line built s')
    (h : s.Known line.ids) : s'.Known [] := by
  have hframe : s'.framer = s.framer ∧ s'.read = s.read ∧ s.made ⊆ s'.made := by
    cases ht with
    | enlisted base l record hb =>
        exact ⟨hb.framer, hb.read, by rw [← hb.made]; exact List.subset_append_left _ _⟩
    | unencodable base l reason hb =>
        exact ⟨hb.framer, hb.read, by rw [← hb.made]; exact List.subset_append_left _ _⟩
    | refused base reason hb =>
        exact ⟨hb.framer, hb.read, by rw [← hb.made]; exact List.Subset.refl _⟩
    | dropped base hb => exact ⟨hb.framer, hb.read, by rw [← hb.made]; exact List.Subset.refl _⟩
  have hline : ∀ i ∈ line.ids, s'.Accounted i := by
    intro i hi
    cases ht with
    | enlisted base l record hb hbuilt hids =>
        exact .inr (.inr ⟨l, List.mem_append_right _ (List.mem_singleton.mpr rfl), hids ▸ hi⟩)
    | unencodable base l reason hb =>
        exact .inr (.inl ⟨.refused line reason,
          List.mem_append_right _ (List.mem_singleton.mpr rfl), hi⟩)
    | refused base reason hb =>
        exact .inr (.inl ⟨.refused line reason,
          List.mem_append_right _ (List.mem_singleton.mpr rfl), hi⟩)
    | dropped base hb => exact .inl (List.mem_append_right _ hi)
  intro i hi
  rw [hframe.2.1] at hi
  rw [hframe.1]
  rcases h i hi with hid | hid | hacc
  · exact .inr (.inr (hline i hid))
  · exact .inr (.inl hid)
  · exact .inr (.inr (ht.moves.accounted hframe.2.2 hacc))

/-- A line handed out is at hand. -/
theorem State.Known.handed (h : s.Known []) (tailer : Tailer) :
    (s.handed tailer s.framer).Known [s.read] := by
  intro i hi
  rcases Nat.lt_succ_iff_lt_or_eq.mp hi with hlt | rfl
  · rcases h i hlt with hid | hid | hacc
    · cases hid
    · exact .inr (.inl hid)
    · exact .inr (.inr hacc)
  · exact .inl (List.mem_singleton.mpr rfl)

theorem known_next (h : s.Known []) {nowNs : Int} {nowMs : Nat}
    (hstep : next c s nowNs nowMs = some s') : s'.Known [] := by
  -- a line at hand goes through the framer
  have hfed : ∀ tailer framer out, Conserves (s.framer.ids ++ [s.read]) framer.ids out →
      (s.handed tailer framer).Known (out.elim [] Chunk.ids) := fun tailer framer out hc =>
    (h.handed tailer).fed hc ⟨rfl, rfl⟩ rfl
      (moves_framer (s.handed tailer s.framer) tailer framer false (s.read + 1)).toDurable
  cases (next_cases hstep).2 with
  | idle tailer =>
      refine State.Known.go (s := { s with tailer }) ?_ _
      exact h.same ⟨rfl, rfl, rfl⟩ (moves_framer s tailer s.framer s.idle s.read).toDurable
  | buffered tailer framer hids => exact hfed tailer framer none hids
  | refused tailer line e hids =>
      have hat := h.handed tailer
      rw [← hids] at hat
      have htook : Took (s.handed tailer s.framer) line (.error e)
          ((s.handed tailer s.framer).refuse line e) := .refused _ e (.refl _)
      exact htook.known hat
  | completed tailer framer record hids =>
      exact (took_take c _ record nowNs).known (hfed tailer framer (some record) hids)
  | full tailer framer record hids =>
      exact ((took_take c _ record nowNs).known (hfed tailer framer (some record) hids)).go _

/-- The framer gives something out on its own. -/
theorem State.Known.released (h : s.Known []) {framer : Framer} {out : Option Chunk}
    (hc : Conserves s.framer.ids framer.ids out) :
    ({ s with framer } : State).Known (out.elim [] Chunk.ids) := by
  refine @State.Known.fed _ _ framer _ _ h ?_ ⟨rfl, rfl⟩ rfl
    (moves_framer s s.tailer framer s.idle s.read).toDurable
  rwa [List.append_nil]

theorem known_expire (h : s.Known []) {nowNs : Int} {nowMs : Nat} {order : List Text}
    (hstep : expire c s nowNs nowMs order = some s') : s'.Known [] := by
  obtain ⟨framer, out, hc, ⟨rfl, rfl⟩ | ⟨record, rfl, -, rfl⟩⟩ := expire_cases hstep
  · exact (h.released hc).go _
  · exact ((took_take c _ record nowNs).known (h.released hc)).go _

namespace State

/-- What shutdown takes out of the framer becomes a record, or none on purpose. -/
def Builds (c : Config) (s : State) : Event → Prop
  | .unframe nowNs order =>
      ∀ line ∈ (s.framer.drain c.libs order).1, ∃ built, s.built c line nowNs = .ok built
  | _ => True

/-- A record that shutdown makes has an encoding. -/
def Encodes (c : Config) (s : State) : Event → Prop
  | .unframe nowNs order =>
      ∀ line ∈ (s.framer.drain c.libs order).1, ∀ record ts,
        s.built c line nowNs = .ok (.ready record ts) →
        ∃ text, record.encode c.libs.display = .ok text
  | _ => True

/-- Shutdown passes over nothing. -/
def Unframes (c : Config) (s : State) (e : Event) : Prop := s.Builds c e ∧ s.Encodes c e

end State

theorem known_unframe (h : s.Known []) {nowNs : Int} {order : List Text}
    (hok : s.Builds c (.unframe nowNs order)) (hstep : unframe c s nowNs order = some s') :
    s'.Known [] := by
  obtain ⟨-, ⟨framer, -, hc, rfl⟩ | ⟨framer, line, hdrain, hc, rfl⟩⟩ := unframe_cases hstep
  · exact (h.released hc).go _
  · have hat := h.released hc
    rcases took_takeLast c { s with framer } line nowNs with ht | hl
    · exact ht.known hat
    · have hm := hl.moves.toDurable
      obtain ⟨built, hbuilt⟩ := hok line (by rw [hdrain]; rfl)
      generalize State.takeLast c { s with framer } line nowNs = t at hl hm
      cases hl with
      | unencodable base l record e hb _ hids =>
          intro i hi
          rcases hat i (by rwa [← hb.read]) with hid | hid | hacc
          · exact .inr (.inr (.inr (.inr ⟨l, List.mem_append_right _
              (List.mem_singleton.mpr rfl), hids ▸ hid⟩)))
          · exact .inr (.inl (by rwa [show (base.unencoded l).framer = framer from hb.framer]))
          · exact .inr (.inr (hm.accounted
              (by rw [← hb.made]; exact List.subset_append_left _ _) hacc))
      | unbuilt base e hb herror => cases hbuilt.symm.trans herror

/-! ## Every record is placed -/

theorem Moves.allPlaced (hm : Moves s s') (hmade : s'.made = s.made)
    (h : ∀ l ∈ s.made, s.Placed l) : ∀ l ∈ s'.made, s'.Placed l := by
  intro l hl
  rw [hmade] at hl
  exact hm.placed (h l hl)

theorem Took.allPlaced {line : Chunk} {built : Except String Built} (ht : Took s line built s')
    (h : ∀ l ∈ s.made, s.Placed l) : ∀ l ∈ s'.made, s'.Placed l := by
  intro l hl
  have hold : l ∈ s.made → s'.Placed l := fun hl => ht.moves.placed (h l hl)
  cases ht with
  | enlisted base new record hb hbuilt hids htext =>
      rcases List.mem_append.mp hl with hl | hl
      · exact hold (hb.made ▸ hl)
      · cases List.mem_singleton.mp hl
        refine .inr ⟨List.isEmpty_eq_false_iff.mpr htext, .inl (.inl ?_)⟩
        exact List.mem_append_right _ (List.mem_singleton.mpr rfl)
  | unencodable base new reason hb hids =>
      rcases List.mem_append.mp hl with hl | hl
      · exact hold (hb.made ▸ hl)
      · cases List.mem_singleton.mp hl
        exact .inl (.inr ⟨.refused line reason,
          List.mem_append_right _ (List.mem_singleton.mpr rfl), hids.symm⟩)
  | refused base reason hb => exact hold (hb.made ▸ hl)
  | dropped base hb => exact hold (hb.made ▸ hl)

theorem placed_go (phase : Phase) (h : ∀ l ∈ s.made, s.Placed l) :
    ∀ l ∈ (s.go phase).made, (s.go phase).Placed l :=
  (still_go s phase).toQuiet.moves.allPlaced (still_go s phase).made h

theorem placed_framer {tailer : Tailer} {framer : Framer} {idle : Bool} {read : Nat}
    (h : ∀ l ∈ s.made, s.Placed l) :
    ∀ l ∈ ({ s with tailer, framer, idle, read } : State).made,
      ({ s with tailer, framer, idle, read } : State).Placed l :=
  (moves_framer s tailer framer idle read).allPlaced rfl h

theorem placed_next (h : ∀ l ∈ s.made, s.Placed l) {nowNs : Int} {nowMs : Nat}
    (hstep : next c s nowNs nowMs = some s') : ∀ l ∈ s'.made, s'.Placed l := by
  cases (next_cases hstep).2 with
  | idle tailer => exact placed_go _ (placed_framer h)
  | buffered tailer framer => exact placed_framer h
  | refused tailer line e =>
      have hat : ∀ l ∈ (s.handed tailer s.framer).made, (s.handed tailer s.framer).Placed l :=
        placed_framer h
      have htook : Took (s.handed tailer s.framer) line (.error e)
          ((s.handed tailer s.framer).refuse line e) := .refused _ e (.refl _)
      exact htook.allPlaced hat
  | completed tailer framer record => exact (took_take c _ record nowNs).allPlaced (placed_framer h)
  | full tailer framer record =>
      exact placed_go _ ((took_take c _ record nowNs).allPlaced (placed_framer h))

theorem placed_expire (h : ∀ l ∈ s.made, s.Placed l) {nowNs : Int} {nowMs : Nat}
    {order : List Text} (hstep : expire c s nowNs nowMs order = some s') :
    ∀ l ∈ s'.made, s'.Placed l := by
  obtain ⟨framer, out, -, ⟨-, rfl⟩ | ⟨record, -, -, rfl⟩⟩ := expire_cases hstep
  · exact placed_go _ (placed_framer h)
  · exact placed_go _ ((took_take c _ record nowNs).allPlaced (placed_framer h))

theorem placed_unframe (h : ∀ l ∈ s.made, s.Placed l) {nowNs : Int} {order : List Text}
    (hok : s.Encodes c (.unframe nowNs order)) (hstep : unframe c s nowNs order = some s') :
    ∀ l ∈ s'.made, s'.Placed l := by
  obtain ⟨-, ⟨framer, -, -, rfl⟩ | ⟨framer, line, hdrain, -, rfl⟩⟩ := unframe_cases hstep
  · exact placed_go _ (placed_framer h)
  · have hat : ∀ l ∈ ({ s with framer } : State).made, ({ s with framer } : State).Placed l :=
      placed_framer h
    rcases took_takeLast c { s with framer } line nowNs with ht | hl
    · exact ht.allPlaced hat
    · have hm := hl.moves
      generalize State.takeLast c { s with framer } line nowNs = t at hl hm ⊢
      cases hl with
      | unencodable base l record e hb hbuilt hids hencode =>
          obtain ⟨text, htext⟩ := hok line (by rw [hdrain]; rfl) record l.ts hbuilt
          cases htext.symm.trans hencode
      | unbuilt base e hb => exact hm.allPlaced hb.made hat

/-! ## Every step -/

theorem running_of_step {e : Event} (hstep : step c s e = some s') : s.phase ≠ .stopped := by
  intro hstop
  simp [step, hstop] at hstep

theorem step_known {e : Event} (hcore : Core s) (h : s.Known []) (hok : s.Builds c e)
    (hstep : step c s e = some s') : s'.Known [] := by
  by_cases he : e.feeds = false
  · exact h.same (step_same hcore hstep he) (step_durable hcore hstep)
  · unfold step at hstep
    split at hstep
    · cases hstep
    cases e with
    | next nowNs nowMs => exact known_next h hstep
    | expire nowNs nowMs order => exact known_expire h hstep
    | unframe nowNs order => exact known_unframe h hok hstep
    | _ => exact absurd rfl he

theorem step_placed {e : Event} (hcore : Core s) (h : ∀ l ∈ s.made, s.Placed l)
    (hok : s.Encodes c e) (hstep : step c s e = some s') (hrun : s'.phase ≠ .stopped) :
    ∀ l ∈ s'.made, s'.Placed l := by
  by_cases he : e.feeds = false
  · rcases step_moves hcore hstep with hm | ⟨hstop, -⟩
    · exact hm.allPlaced (step_same hcore hstep he).made h
    · exact absurd hstop hrun
  · unfold step at hstep
    split at hstep
    · cases hstep
    cases e with
    | next nowNs nowMs => exact placed_next h hstep
    | expire nowNs nowMs order => exact placed_expire h hstep
    | unframe nowNs order => exact placed_unframe h hok hstep
    | _ => exact absurd rfl he

/-- **The account is kept** by every step, but for what shutdown passes over. -/
theorem step_ledger {e : Event} (hcore : Core s) (h : Ledger s) (hok : s.Unframes c e)
    (hstep : step c s e = some s') : Ledger s' :=
  ⟨step_known hcore h.known hok.1 hstep,
    step_placed hcore (h.placed (running_of_step hstep)) hok.2 hstep⟩

/-! ## The start -/

/-- The queue an earlier run left is opened as it stands. -/
theorem Adopted.stored (a : Adopted) (maxBytes : Nat) :
    Stored size (Queue.open size (a.live.map entry) maxBytes).1
      (Queue.open size (a.live.map entry) maxBytes).2 a.live := by
  have hext : ∀ e ∈ a.live.map entry, e.1.ext = Queue.lp := by
    intro e he
    obtain ⟨x, -, rfl⟩ := List.mem_map.mp he
    rfl
  refine OnDisk.opened ⟨?_, ?_⟩ ?_ (fun e he => .inl (hext e he)) maxBytes
  · rw [Dir.withExt, List.filter_eq_self.mpr fun e he => decide_eq_true (hext e he)]
  · rw [Adopted.live, List.pairwise_map]
    exact a.increasing
  · intro x hx
    obtain ⟨y, hy, rfl⟩ := List.mem_map.mp hx
    exact a.narrow y hy

theorem start_core {fs : Fs} {restored : Option Checkpoint} {adopted : Adopted}
    (h : start c fs restored adopted = some s) : Core s := by
  obtain ⟨tailer, -, rfl⟩ := Option.map_eq_some_iff.mp h
  exact ⟨⟨adopted.live, adopted.stored c.queueMaxBytes⟩, by simp⟩

theorem start_ledger {fs : Fs} {restored : Option Checkpoint} {adopted : Adopted}
    (h : start c fs restored adopted = some s) : Ledger s := by
  obtain ⟨tailer, -, rfl⟩ := Option.map_eq_some_iff.mp h
  exact ⟨by simp [State.Known], by simp⟩

/-- **Every reachable state accounts for every line**, if shutdown passed over
none. -/
theorem run_ledger {es : List Event} {s₀ : State} (hcore : Core s₀) (hledger : Ledger s₀)
    (hok : Meets (step c) (fun s e => s.Unframes c e) s₀ es) (hrun : run (step c) s₀ es = some s) :
    Core s ∧ Ledger s :=
  run_invariant (I := fun s => Core s ∧ Ledger s)
    (fun _ _ _ h hok hstep =>
      ⟨(step_durable h.1 hstep).core h.1, step_ledger h.1 h.2 hok hstep⟩) ⟨hcore, hledger⟩ hok hrun

/-! ## A source to run -/

/-- The libraries as far as plain ASCII lines need them. -/
def asciiLibs : Libs :=
  { display := fun _ => [], parseF64 := fun _ => none, floatOf := fun _ => ⟨0⟩
    render := fun _ => [], parseJson := fun _ => .error "expected value"
    parseValue := fun _ => .error "expected value", intError := fun _ => ""
    parseRfc3339 := fun _ => .error "", decodeLossy := id, isMatch := fun _ _ => false
    replaceAll := fun _ _ t => t }

/-- A plain log file, each line a record of its own. -/
def plainSource : Source :=
  { name := "app".toList, path := "a.log".toList, table := "logs".toList, parser := .plain
    timestamp := { field := none, format := "unix_ms".toList, resolution := .millis }
    tags := [], tagsStatic := [], fields := [("message".toList, .string)], visibility := none
    kubernetes := false }

def plainConfig (batchLines queueMaxBytes : Nat) : Config :=
  { libs := asciiLibs, source := plainSource, joiner := Joiner.new none 500 65536 1000
    rules := { filters := [], samples := [], redacts := [] }, batchLines, maxInflight := 1
    queueMaxBytes, floorNs := 0, ceilingNs := 0, once := false }

/-- One file at the path. -/
def oneFile (content : Text) : Fs :=
  (Fs.create { names := [], inodes := Table.empty } "a.log".toList ⟨1, 1⟩).append ⟨1, 1⟩ content

def nothingQueued : Adopted := { bodies := [], increasing := by decide, narrow := by decide }

def down : Answer Line := fun _ => .wire "connection refused"

def up : Answer Line := fun _ => .status 204 none ""

/-- A full disk. -/
def noSpace : Io := .fail .write enospc

/-- What a pass does with a file at its end: nothing is due. -/
def idlePass (nowNs : Int) : List Event :=
  [.next nowNs 0, .expire nowNs 0 [], .time false, .publish false nowNs, .again false]

end Tributary.FileSource
