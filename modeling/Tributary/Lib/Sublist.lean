import Mathlib.Data.List.Basic

/-!
# Lists with elements left out or put in

Leaving out elements of a list changes what the list concatenates to exactly
when one of them contributes something. Interspersing a separator adds nothing
but the separator.
-/

namespace Tributary.Lib

variable {α β : Type*}

theorem flatMap_sublist (g : α → List β) {as bs : List α} (h : as.Sublist bs) :
    (as.flatMap g).Sublist (bs.flatMap g) := by
  induction h with
  | slnil => exact List.Sublist.refl _
  | cons b _ ih => exact ih.trans (List.sublist_append_right _ _)
  | cons_cons b _ ih => exact ih.append_left _

theorem flatMap_eq_iff_of_sublist (g : α → List β) {as bs : List α} (h : as.Sublist bs)
    (hbs : bs.Nodup) :
    as.flatMap g = bs.flatMap g ↔ ∀ b ∈ bs, b ∉ as → g b = [] := by
  induction h with
  | slnil => simp
  | @cons as bs b hsub ih =>
      obtain ⟨hb, hnd⟩ := List.nodup_cons.mp hbs
      have hnot : b ∉ as := fun hm => hb (hsub.subset hm)
      rw [List.flatMap_cons]
      constructor
      · intro heq
        have hlen := (flatMap_sublist g hsub).length_le
        have hnil : g b = [] := by
          rw [← List.length_eq_zero_iff]
          have := congrArg List.length heq
          rw [List.length_append] at this
          omega
        rw [hnil, List.nil_append] at heq
        simpa [hnil, hnot] using (ih hnd).mp heq
      · intro hall
        rw [hall b (by simp) hnot, List.nil_append]
        exact (ih hnd).mpr fun c hc hcas => hall c (by simp [hc]) hcas
  | @cons_cons as bs b hsub ih =>
      obtain ⟨hb, hnd⟩ := List.nodup_cons.mp hbs
      rw [List.flatMap_cons, List.flatMap_cons, List.append_cancel_left_eq, ih hnd]
      constructor
      · intro hall c hc hcas
        rcases List.mem_cons.mp hc with rfl | hc
        · simp at hcas
        · exact hall c hc (by simp_all)
      · intro hall c hc hcas
        refine hall c (by simp [hc]) ?_
        rintro (_ | ⟨_, hm⟩)
        · exact hb hc
        · exact hcas hm

/-- An element past the end of the longer list extends both. -/
theorem sublist_of_sublist_concat {as bs : List α} {b : α} (h : as.Sublist (bs ++ [b]))
    (hb : b ∉ as) : as.Sublist bs := by
  obtain ⟨xs, ys, rfl, hxs, hys⟩ := List.sublist_append_iff.mp h
  have hnil : ys = [] := by
    rcases List.sublist_singleton.mp hys with rfl | rfl
    · rfl
    · simp at hb
  rwa [hnil, List.append_nil]

/-- What stands in an interspersed list is an element or the separator. -/
theorem mem_or_eq_of_mem_intersperse {sep a : α} {as : List α} (h : a ∈ as.intersperse sep) :
    a ∈ as ∨ a = sep := by
  induction as with
  | nil => simp at h
  | cons b as ih =>
      cases as with
      | nil => exact .inl (by simpa using h)
      | cons c as =>
          rw [List.intersperse_cons_cons, List.mem_cons, List.mem_cons] at h
          rcases h with rfl | rfl | h
          · exact .inl (List.mem_cons_self ..)
          · exact .inr rfl
          · exact (ih h).imp_left fun hm => List.mem_cons_of_mem _ hm

/-- Every element stands in the interspersed list. -/
theorem mem_intersperse_of_mem {sep a : α} {as : List α} (h : a ∈ as) :
    a ∈ as.intersperse sep := by
  induction as with
  | nil => cases h
  | cons b as ih =>
      cases as with
      | nil => simpa using h
      | cons c as =>
          rw [List.intersperse_cons_cons]
          rcases List.mem_cons.mp h with rfl | hm
          · exact List.mem_cons_self ..
          · exact List.mem_cons_of_mem _ (List.mem_cons_of_mem _ (ih hm))

end Tributary.Lib
