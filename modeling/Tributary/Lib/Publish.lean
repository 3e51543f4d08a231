import Mathlib.Data.List.GetD
import Mathlib.Data.List.Pairwise
import Mathlib.Logic.Function.Basic
import Tributary.Lib.Run

/-!
# Publishing by rename

Writers that replace what stands under a name: the new content goes to a temporary file, is
synced and renamed into place. A process may be killed between any two of these, and power may be
lost, which undoes renames that have not settled and garbles what was not synced. What stands
under a name is at all times a content that was published there whole.
-/

namespace Tributary.Lib.Publish

inductive Stage where
  | created
  | written
  | synced
deriving DecidableEq, Repr

/-- A content on its way. -/
structure Saving (β : Type) where
  content : β
  stage : Stage
deriving DecidableEq, Repr

/-- The files of a disk, and the writers at work on them. -/
structure State (κ ν β : Type) where
  files : ν → Option β
  /-- what else a loss of power may bring back under a name, oldest first -/
  before : ν → List (Option β)
  /-- not synced -/
  dirty : ν → Bool
  saving : κ → Option (Saving β)
  /-- what was put under the name of a writer, from the start -/
  history : κ → List (Option β)
  /-- the places in it of what may be found there; the last is what is there -/
  stands : κ → List Nat

inductive Event (κ ν β : Type) where
  | create (k : κ) (content : β)
  /-- the content, or what came to be written of it before the write failed -/
  | write (k : κ) (failed : Option β)
  | sync (k : κ) (ok : Bool)
  | rename (k : κ) (ok : Bool)
  | remove (k : κ)
  /-- the disk has caught up with the directory -/
  | settle
  | kill
  | powerLoss (pick : ν → Nat) (garbled : ν → Option β)

variable {κ ν β : Type}

/-- How the files of the writers are named, and what a new file holds. -/
structure Names (κ ν β : Type) where
  temp : κ → ν
  final : κ → ν
  empty : β

/-- No two names are the same, as far as the writers in `ks` are concerned. -/
structure Names.Apart (n : Names κ ν β) (ks : κ → Prop) : Prop where
  temp : ∀ k l, ks k → ks l → n.temp k = n.temp l → k = l
  final : ∀ k l, ks k → n.final k = n.final l → k = l
  both : ∀ k l, n.temp k ≠ n.final l

/-- What a writer has under way after an event, given what it had before. -/
def Event.pending [DecidableEq κ] (k : κ) (pending : Option β) : Event κ ν β → Option β
  | .create l content => if l = k then some content else pending
  | _ => pending

/-- What an event puts under the name of a writer: what it has under way, where a rename goes
through, and nothing, where what is there is removed. -/
def Event.put [DecidableEq κ] (k : κ) (pending : Option β) : Event κ ν β → List (Option β)
  | .rename l true => if l = k then pending.toList.map some else []
  | .remove l => if l = k then [none] else []
  | _ => []

/-- What events put under the name of a writer, in order. -/
def puts [DecidableEq κ] (k : κ) : Option β → List (Event κ ν β) → List (Option β)
  | _, [] => []
  | pending, e :: es => e.put k pending ++ puts k (e.pending k pending) es

namespace State

/-- The disk as it is found. -/
def found (n : Names κ ν β) (files : ν → Option β) : State κ ν β :=
  { files
    before := fun _ => []
    dirty := fun _ => false
    saving := fun _ => none
    history := fun k => [files (n.final k)]
    stands := fun _ => [0] }

/-- All writers are gone. -/
def stop (s : State κ ν β) : State κ ν β := { s with saving := fun _ => none }

/-- What is found under a name after power was lost. -/
def survivor (s : State κ ν β) (pick : ν → Nat) (garbled : ν → Option β) (x : ν) : Option β :=
  if s.dirty x then garbled x else (s.before x).getD (pick x) (s.files x)

/-- The writers at work are in `ks`. What may be found under a final name is what was put there,
at the places that are said to stand; what is synced is in the temporary file. -/
structure Inv (n : Names κ ν β) (ks : κ → Prop) (s : State κ ν β) : Prop where
  stand : ∀ k, s.before (n.final k) ++ [s.files (n.final k)]
    = (s.stands k).map fun i => (s.history k).getD i none
  sorted : ∀ k, (s.stands k).Pairwise (· < ·)
  within : ∀ k, ∀ i ∈ s.stands k, i < (s.history k).length
  clean : ∀ k, s.dirty (n.final k) = false
  working : ∀ k sv, s.saving k = some sv → ks k
  held : ∀ k sv, s.saving k = some sv → sv.stage ≠ .created →
    s.files (n.temp k) = some sv.content
  synced : ∀ k sv, s.saving k = some sv → sv.stage = .synced → s.dirty (n.temp k) = false

variable {n : Names κ ν β} {ks : κ → Prop} {s t : State κ ν β} {k : κ} {x : ν}
  {content : Option β} {saving : Option (Saving β)}

theorem inv_found (files : ν → Option β) : Inv n ks (found n files) where
  stand := fun _ => rfl
  sorted := fun _ => List.pairwise_singleton _ _
  within := fun _ i hi => by simp [List.mem_singleton.mp hi, found]
  clean := fun _ => rfl
  working := fun _ _ h => by cases h
  held := fun _ _ h => by cases h
  synced := fun _ _ h => by cases h

/-- The places that stand, the last of them apart. -/
theorem Inv.stands_eq (h : Inv n ks s) (k : κ) : ∃ is i, s.stands k = is ++ [i]
    ∧ s.before (n.final k) = is.map (fun i => (s.history k).getD i none)
    ∧ s.files (n.final k) = (s.history k).getD i none := by
  have hstand := h.stand k
  rcases List.eq_nil_or_concat (s.stands k) with hnil | ⟨is, i, his⟩
  · simp [hnil] at hstand
  · rw [List.concat_eq_append] at his
    rw [his, List.map_append] at hstand
    obtain ⟨hbefore, hlast⟩ := List.append_inj' hstand rfl
    exact ⟨is, i, his, hbefore, by simpa using hlast⟩

theorem Inv.stop (h : Inv n ks s) : Inv n ks s.stop :=
  { h with
    working := fun _ _ h => by cases h
    held := fun _ _ h => by cases h
    synced := fun _ _ h => by cases h }

/-- What stands after power was lost is one of what stood. -/
theorem Inv.powerLoss (h : Inv n ks s) (pick : ν → Nat) (garbled : ν → Option β) :
    Inv n ks { s.stop with
      files := s.survivor pick garbled
      before := fun _ => []
      dirty := fun _ => false
      stands := fun k => [(s.stands k).getD (pick (n.final k)) ((s.stands k).getLastD 0)] } := by
  have hpick : ∀ k, (s.stands k).getD (pick (n.final k)) ((s.stands k).getLastD 0)
      ∈ s.stands k ∧ s.survivor pick garbled (n.final k) = (s.history k).getD
        ((s.stands k).getD (pick (n.final k)) ((s.stands k).getLastD 0)) none := by
    intro k
    obtain ⟨is, i, his, hbefore, hfile⟩ := h.stands_eq k
    have hlast : (s.stands k).getLastD 0 = i := by simp [his]
    have hget : (s.stands k).getD (pick (n.final k)) i = is.getD (pick (n.final k)) i := by
      rw [his]
      rcases Nat.lt_or_ge (pick (n.final k)) is.length with hlt | hge
      · rw [List.getD_append _ _ _ _ hlt]
      · rw [List.getD_append_right _ _ _ _ hge, List.getD_eq_default _ _ hge]
        cases pick (n.final k) - is.length <;> rfl
    rw [hlast, hget]
    constructor
    · rw [his]
      rcases Nat.lt_or_ge (pick (n.final k)) is.length with hlt | hge
      · rw [List.getD_eq_getElem _ _ hlt]
        exact List.mem_append_left _ (List.getElem_mem hlt)
      · rw [List.getD_eq_default _ _ hge]
        exact List.mem_append_right _ (List.mem_singleton_self i)
    · rw [survivor, h.clean k, if_neg Bool.false_ne_true, hbefore, hfile, List.getD_map]
  refine { h.stop with stand := fun k => ?_, sorted := fun _ => List.pairwise_singleton _ _,
                       within := fun k i hi => ?_, clean := fun _ => rfl,
                       held := fun _ _ h => ?_, synced := fun _ _ _ _ => rfl }
  · exact congrArg (fun c => [c]) (hpick k).2
  · rw [List.mem_singleton.mp hi]
    exact h.within k _ (hpick k).1
  · cases h

section

variable [DecidableEq κ]

def at_ (s : State κ ν β) (k : κ) (saving : Option (Saving β)) : State κ ν β :=
  { s with saving := Function.update s.saving k saving }

def record (s : State κ ν β) (k : κ) (content : Option β) : State κ ν β :=
  { s with
    history := Function.update s.history k (s.history k ++ [content])
    stands := Function.update s.stands k (s.stands k ++ [(s.history k).length]) }

/-- A writer goes on to a stage that its temporary file has reached. -/
theorem Inv.at_ (h : Inv n ks s) (hk : ks k)
    (hheld : ∀ sv, saving = some sv → sv.stage ≠ .created →
      s.files (n.temp k) = some sv.content)
    (hsynced : ∀ sv, saving = some sv → sv.stage = .synced → s.dirty (n.temp k) = false) :
    Inv n ks (s.at_ k saving) := by
  have hcases : ∀ l sv, Function.update s.saving k saving l = some sv →
      l = k ∧ saving = some sv ∨ s.saving l = some sv := by
    intro l sv hsv
    by_cases heq : l = k
    · subst heq
      rw [Function.update_self] at hsv
      exact .inl ⟨rfl, hsv⟩
    · rw [Function.update_of_ne heq] at hsv
      exact .inr hsv
  refine { h with working := fun l sv hsv => ?_, held := fun l sv hsv => ?_,
                  synced := fun l sv hsv => ?_ }
  · rcases hcases l sv hsv with ⟨rfl, -⟩ | hsv
    · exact hk
    · exact h.working l sv hsv
  · rcases hcases l sv hsv with ⟨rfl, hnew⟩ | hold
    · exact hheld sv hnew
    · exact h.held l sv hold
  · rcases hcases l sv hsv with ⟨rfl, hnew⟩ | hold
    · exact hsynced sv hnew
    · exact h.synced l sv hold

theorem Inv.idle (h : Inv n ks s) (hk : ks k) : Inv n ks (s.at_ k none) :=
  h.at_ hk (fun _ hsv => by cases hsv) fun _ hsv => by cases hsv

end

section

variable [DecidableEq ν]

/-- Something else stands under the name; what stood there may come back. -/
def put (s : State κ ν β) (x : ν) (content : Option β) : State κ ν β :=
  { s with
    files := Function.update s.files x content
    before := Function.update s.before x (s.before x ++ [s.files x]) }

def mark (s : State κ ν β) (x : ν) (dirty : Bool) : State κ ν β :=
  { s with dirty := Function.update s.dirty x dirty }

/-- What is written to a temporary file is seen by its writer only. -/
theorem Inv.put_temp (h : Inv n ks s) (hn : n.Apart ks) (hk : ks k)
    (hearly : ∀ sv, s.saving k = some sv → sv.stage = .created) :
    Inv n ks (s.put (n.temp k) content) := by
  have hfinal : ∀ l, n.final l ≠ n.temp k := fun l => (hn.both k l).symm
  refine { h with stand := fun l => ?_, held := fun l sv hsv hstage => ?_ }
  · simp only [put, Function.update_of_ne (hfinal l)]
    exact h.stand l
  · -- what is held is of another writer, as `k` has written nothing yet
    have hne : n.temp l ≠ n.temp k := by
      intro heq
      obtain rfl := hn.temp l k (h.working l sv hsv) hk heq
      exact hstage (hearly sv hsv)
    simp only [put, Function.update_of_ne hne]
    exact h.held l sv hsv hstage

theorem Inv.mark_temp (h : Inv n ks s) (hn : n.Apart ks) (hk : ks k) {dirty : Bool}
    (hsafe : dirty = false ∨ s.saving k = none) : Inv n ks (s.mark (n.temp k) dirty) := by
  refine { h with clean := fun l => ?_, synced := fun l sv hsv hstage => ?_ }
  · simp only [mark, Function.update_of_ne (hn.both k l).symm]
    exact h.clean l
  · by_cases heq : n.temp l = n.temp k
    · obtain rfl := hn.temp l k (h.working l sv hsv) hk heq
      have hnone : s.saving l ≠ none := by
        have hsv : s.saving l = some sv := hsv
        simp [hsv]
      simp only [mark, Function.update_self]
      exact hsafe.resolve_right hnone
    · simp only [mark, Function.update_of_ne heq]
      exact h.synced l sv hsv hstage

end

variable [DecidableEq κ] [DecidableEq ν]

/-- A new content under the final name. -/
theorem Inv.publish (h : Inv n ks s) (hn : n.Apart ks) (hk : ks k) :
    Inv n ks ((s.put (n.final k) content).record k content) := by
  refine { h with stand := fun l => ?_, sorted := fun l => ?_, within := fun l => ?_,
                  held := fun l sv hsv hstage => ?_ }
  · by_cases heq : l = k
    · subst heq
      simp only [put, record, Function.update_self, List.map_append, h.stand l]
      congr 1
      · refine List.map_congr_left fun i hi => ?_
        rw [List.getD_append _ _ _ _ (h.within l i hi)]
      · simp
    · have hne : n.final l ≠ n.final k := fun hf => heq (hn.final k l hk hf.symm).symm
      simp only [put, record, Function.update_of_ne heq, Function.update_of_ne hne]
      exact h.stand l
  · by_cases heq : l = k
    · subst heq
      simp only [put, record, Function.update_self]
      -- the new place is behind all that stood
      refine List.pairwise_append.mpr ⟨h.sorted l, List.pairwise_singleton _ _, ?_⟩
      intro i hi j hj
      rw [List.mem_singleton.mp hj]
      exact h.within l i hi
    · simp only [put, record, Function.update_of_ne heq]
      exact h.sorted l
  · by_cases heq : l = k
    · subst heq
      intro i hi
      simp only [put, record, Function.update_self] at hi ⊢
      rw [List.length_append, List.length_singleton]
      rcases List.mem_append.mp hi with hi | hi
      · exact Nat.lt_succ_of_lt (h.within l i hi)
      · rw [List.mem_singleton.mp hi]
        exact Nat.lt_succ_self _
    · simp only [put, record, Function.update_of_ne heq]
      exact h.within l
  · simp only [put, record, Function.update_of_ne (hn.both l k)]
    exact h.held l sv hsv hstage

/-! ## The steps -/

def step (n : Names κ ν β) (s : State κ ν β) : Event κ ν β → Option (State κ ν β)
  | .create k content =>
      match s.saving k with
      | some _ => none
      | none =>
          some (((s.put (n.temp k) (some n.empty)).mark (n.temp k) true).at_ k
            (some { content, stage := .created }))
  | .write k failed =>
      match s.saving k with
      | some ⟨content, .created⟩ =>
          some (match failed with
            -- the temporary file is left behind as it is
            | some torn => (s.put (n.temp k) (some torn)).at_ k none
            | none => (s.put (n.temp k) (some content)).at_ k
                (some { content, stage := .written }))
      | _ => none
  | .sync k ok =>
      match s.saving k with
      | some ⟨content, .written⟩ =>
          some (if ok then (s.mark (n.temp k) false).at_ k (some { content, stage := .synced })
            else s.at_ k none)
      | _ => none
  | .rename k ok =>
      match s.saving k with
      | some ⟨content, .synced⟩ =>
          some (if ok then
              (((s.put (n.final k) (s.files (n.temp k))).record k (some content)).put
                (n.temp k) none).at_ k none
            else s.at_ k none)
      | _ => none
  | .remove k =>
      match s.saving k with
      | some _ => none
      | none => some ((s.put (n.final k) none).record k none)
  | .settle =>
      -- nothing older can come back
      some { s with before := fun _ => [], stands := fun k => [(s.stands k).getLastD 0] }
  | .kill => some s.stop
  | .powerLoss pick garbled =>
      some { s.stop with
        files := s.survivor pick garbled
        before := fun _ => []
        dirty := fun _ => false
        stands := fun k => [(s.stands k).getD (pick (n.final k)) ((s.stands k).getLastD 0)] }

/-- The writer that an event is about is one of `ks`. -/
def By (ks : κ → Prop) (_ : State κ ν β) : Event κ ν β → Prop
  | .create k _ | .remove k => ks k
  | _ => True

theorem Inv.rename (h : Inv n ks s) (hn : n.Apart ks) {new : β}
    (hsv : s.saving k = some ⟨new, .synced⟩) :
    Inv n ks ((((s.put (n.final k) (s.files (n.temp k))).record k (some new)).put
      (n.temp k) none).at_ k none) := by
  have hk := h.working k _ hsv
  rw [h.held k _ hsv (by simp)]
  -- the writer is done before the names change, for all they can tell
  exact ((h.idle hk).publish hn hk).put_temp hn hk fun sv hsv => by
    simp [State.at_, put, record] at hsv

/-- **One step keeps what stands.** -/
theorem Inv.step {e : Event κ ν β} (h : Inv n ks s) (hn : n.Apart ks) (hby : By ks s e)
    (ht : State.step n s e = some t) : Inv n ks t := by
  cases e with
  | create k content =>
      rw [State.step] at ht
      split at ht
      · cases ht
      · rename_i hnone
        cases ht
        have hput : Inv n ks (s.put (n.temp k) (some n.empty)) :=
          h.put_temp hn hby fun sv hsv => by
            rw [hnone] at hsv
            cases hsv
        refine (hput.mark_temp hn hby (.inr hnone)).at_ hby ?_ ?_
        · rintro sv ⟨⟩ hstage
          exact absurd rfl hstage
        · rintro sv ⟨⟩ hstage
          cases hstage
  | write k failed =>
      rw [State.step] at ht
      split at ht
      · rename_i content hsv
        cases ht
        have hk := h.working k _ hsv
        have hearly : ∀ sv, s.saving k = some sv → sv.stage = .created := by
          intro sv h
          rw [hsv] at h
          cases h
          rfl
        cases failed with
        | some torn => exact (h.put_temp hn hk hearly).idle hk
        | none =>
            refine (h.put_temp hn hk hearly).at_ hk ?_ ?_
            · rintro sv ⟨⟩ -
              simp [put]
            · rintro sv ⟨⟩ hstage
              cases hstage
      · cases ht
  | sync k ok =>
      rw [State.step] at ht
      split at ht
      · rename_i content hsv
        cases ht
        have hk := h.working k _ hsv
        cases ok with
        | false => exact h.idle hk
        | true =>
            refine (h.mark_temp hn hk (.inl rfl)).at_ hk ?_ ?_
            · rintro sv ⟨⟩ -
              have hheld := h.held k _ hsv (by simp)
              exact hheld
            · rintro sv ⟨⟩ -
              simp [mark]
      · cases ht
  | rename k ok =>
      rw [State.step] at ht
      split at ht
      · rename_i content hsv
        cases ht
        cases ok with
        | false => exact h.idle (h.working k _ hsv)
        | true => exact h.rename hn hsv
      · cases ht
  | remove k =>
      rw [State.step] at ht
      split at ht
      · cases ht
      · cases ht
        exact h.publish hn hby
  | settle =>
      cases ht
      refine { h with stand := fun k => ?_, sorted := fun _ => List.pairwise_singleton _ _,
                      within := fun k i hi => ?_ }
      · obtain ⟨is, i, his, -, hfile⟩ := h.stands_eq k
        simp [his, hfile]
      · obtain ⟨is, j, his, -, -⟩ := h.stands_eq k
        rw [List.mem_singleton.mp hi]
        exact h.within k _ (by simp [his])
  | kill =>
      cases ht
      exact h.stop
  | powerLoss pick garbled =>
      cases ht
      exact h.powerLoss pick garbled

/-! ## What stands -/

/-- What a step makes of what stands. -/
inductive Change (n : Names κ ν β) (s t : State κ ν β) (e : Event κ ν β) : Prop where
  | none (history : t.history = s.history) (stands : t.stands = s.stands)
  | record (k : κ) (content : Option β) (source : (e = .remove k ∧ content = Option.none)
        ∨ ∃ sv, s.saving k = some sv ∧ content = some sv.content)
      (history : t.history = (s.record k content).history)
      (stands : t.stands = (s.record k content).stands)
  | settle (history : t.history = s.history)
      (stands : t.stands = fun k => [(s.stands k).getLastD 0])
  | powerLoss (pick : ν → Nat) (garbled : ν → Option β) (event : e = .powerLoss pick garbled)
      (history : t.history = s.history)
      (stands : t.stands
        = fun k => [(s.stands k).getD (pick (n.final k)) ((s.stands k).getLastD 0)])

theorem change {e : Event κ ν β} (ht : State.step n s e = some t) : Change n s t e := by
  cases e with
  | create k content =>
      rw [State.step] at ht
      split at ht <;> cases ht
      exact .none rfl rfl
  | write k failed =>
      rw [State.step] at ht
      split at ht
      · cases ht
        cases failed <;> exact .none rfl rfl
      · cases ht
  | sync k ok =>
      rw [State.step] at ht
      split at ht
      · cases ht
        cases ok <;> exact .none rfl rfl
      · cases ht
  | rename k ok =>
      rw [State.step] at ht
      split at ht
      · rename_i content hsv
        cases ht
        cases ok with
        | false => exact .none rfl rfl
        | true => exact .record k (some content) (.inr ⟨_, hsv, rfl⟩) rfl rfl
      · cases ht
  | remove k =>
      rw [State.step] at ht
      split at ht <;> cases ht
      exact .record k Option.none (.inl ⟨rfl, rfl⟩) rfl rfl
  | settle =>
      cases ht
      exact .settle rfl rfl
  | kill =>
      cases ht
      exact .none rfl rfl
  | powerLoss pick garbled =>
      cases ht
      exact .powerLoss pick garbled rfl rfl rfl

/-- A writer that is at work was so before, unless it has just begun. -/
theorem saving_step {e : Event κ ν β} (ht : State.step n s e = some t)
    (hsv : t.saving k ≠ none) : s.saving k ≠ none ∨ ∃ content, e = .create k content := by
  have hold : ∀ l (saving : Option (Saving β)), Function.update s.saving l saving k ≠ none →
      k = l ∨ s.saving k ≠ none := by
    intro l saving h
    by_cases heq : k = l
    · exact .inl heq
    · rw [Function.update_of_ne heq] at h
      exact .inr h
  cases e with
  | create l content =>
      rw [State.step] at ht
      split at ht <;> cases ht
      rcases hold l _ hsv with rfl | h
      · exact .inr ⟨content, rfl⟩
      · exact .inl h
  | write l failed =>
      rw [State.step] at ht
      split at ht
      · rename_i content hl
        cases ht
        cases failed <;>
        · rcases hold l _ hsv with rfl | h
          · simp [hl]
          · exact .inl h
      · cases ht
  | sync l ok =>
      rw [State.step] at ht
      split at ht
      · rename_i content hl
        cases ht
        cases ok <;>
        · rcases hold l _ hsv with rfl | h
          · simp [hl]
          · exact .inl h
      · cases ht
  | rename l ok =>
      rw [State.step] at ht
      split at ht
      · rename_i content hl
        cases ht
        cases ok <;>
        · rcases hold l _ hsv with rfl | h
          · simp [hl]
          · exact .inl h
      · cases ht
  | remove l =>
      rw [State.step] at ht
      split at ht <;> cases ht
      exact .inl hsv
  | settle =>
      cases ht
      exact .inl hsv
  | kill =>
      cases ht
      exact absurd rfl hsv
  | powerLoss pick garbled =>
      cases ht
      exact absurd rfl hsv

/-- What stands is what stood at the place `m`, or was put there after the first `len`. -/
structure Since (k : κ) (m len : Nat) (s : State κ ν β) : Prop where
  grown : len ≤ (s.history k).length
  stand : ∀ i ∈ s.stands k, i = m ∨ len ≤ i

theorem Since.step {m len : Nat} {e : Event κ ν β} (h : Inv n ks s) (hs : Since k m len s)
    (ht : State.step n s e = some t) : Since k m len t := by
  obtain ⟨is, j, his, -, -⟩ := h.stands_eq k
  have hj : j ∈ s.stands k := by simp [his]
  have hlast : (s.stands k).getLastD 0 = j := by simp [his]
  cases change ht with
  | none hhistory hstands => exact ⟨hhistory ▸ hs.grown, hstands ▸ hs.stand⟩
  | record l content _ hhistory hstands =>
      by_cases heq : k = l
      · subst heq
        refine ⟨?_, fun i hi => ?_⟩
        · rw [hhistory]
          simp only [record, Function.update_self, List.length_append]
          exact Nat.le_add_right_of_le hs.grown
        · rw [hstands] at hi
          simp only [record, Function.update_self, List.mem_append, List.mem_singleton] at hi
          rcases hi with hi | rfl
          · exact hs.stand i hi
          · exact .inr hs.grown
      · constructor
        · simpa only [hhistory, record, Function.update_of_ne heq] using hs.grown
        · simpa only [hstands, record, Function.update_of_ne heq] using hs.stand
  | settle hhistory hstands =>
      refine ⟨hhistory ▸ hs.grown, fun i hi => ?_⟩
      rw [hstands, List.mem_singleton, hlast] at hi
      exact hi ▸ hs.stand j hj
  | powerLoss pick garbled _ hhistory hstands =>
      refine ⟨hhistory ▸ hs.grown, fun i hi => ?_⟩
      rw [hstands, List.mem_singleton, hlast] at hi
      rcases Nat.lt_or_ge (pick (n.final k)) (s.stands k).length with hlt | hge
      · rw [List.getD_eq_getElem _ _ hlt] at hi
        exact hi ▸ hs.stand _ (List.getElem_mem hlt)
      · rw [List.getD_eq_default _ _ hge] at hi
        exact hi ▸ hs.stand j hj

/-- The last that was put under the name stands. -/
def Latest (k : κ) (s : State κ ν β) : Prop :=
  (s.stands k).getLast? = some ((s.history k).length - 1)

def NoLoss (_ : State κ ν β) : Event κ ν β → Prop
  | .powerLoss _ _ => False
  | _ => True

theorem Latest.step {e : Event κ ν β} (h : Latest k s) (hno : NoLoss s e)
    (ht : State.step n s e = some t) : Latest k t := by
  rw [Latest] at h ⊢
  cases change ht with
  | none hhistory hstands => rwa [hhistory, hstands]
  | record l content _ hhistory hstands =>
      rw [hhistory, hstands]
      by_cases heq : k = l
      · subst heq
        simp [record]
      · simpa only [record, Function.update_of_ne heq] using h
  | settle hhistory hstands =>
      rw [hhistory, hstands]
      simp [List.getLastD_eq_getLast?, h]
  | powerLoss pick garbled hevent _ _ =>
      subst hevent
      exact hno.elim

/-- The writer has this under way, if anything. -/
def Pending (k : κ) (pending : Option β) (s : State κ ν β) : Prop :=
  ∀ sv, s.saving k = some sv → pending = some sv.content

end State

end Tributary.Lib.Publish
