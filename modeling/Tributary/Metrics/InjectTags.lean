import Mathlib.Data.Char
import Mathlib.Data.List.Lex
import Mathlib.Data.List.Perm.Subperm
import Tributary.Metrics.LineGrammar

/-!
# Global tags on a line of a command

What a line with the global tags reads as. A name that ends in a backslash, or where the reader
takes a backslash with what stands behind it, is not read as it was.
-/

namespace Tributary.Exec

open Lp (isSpecial endsTable)

/-! ## The tags of a context -/

/-- `BTreeMap::insert`. -/
def insertTag (k v : Text) : Tags → Tags
  | [] => [(k, v)]
  | kv :: m =>
      if k < kv.1 then (k, v) :: kv :: m
      else if k = kv.1 then (k, v) :: m
      else kv :: insertTag k v m

structure Ctx where
  host : Text
  globalTags : Tags
  /-- they are a map, and its keys in order -/
  sorted : (globalTags.map Prod.fst).Pairwise (· < ·)

/-- The global tags, the `host` tag, and a measurement's own. -/
def Ctx.tags (ctx : Ctx) (structural : Tags) : Tags :=
  structural.foldl (fun m kv => insertTag kv.1 kv.2 m)
    (insertTag "host".toList ctx.host ctx.globalTags)

theorem mem_keys_insertTag {k v : Text} {m : Tags} {x : Text}
    (h : x ∈ (insertTag k v m).map Prod.fst) : x = k ∨ x ∈ m.map Prod.fst := by
  induction m with
  | nil => exact .inl (List.mem_singleton.mp h)
  | cons kv m ih =>
      rw [insertTag] at h
      split at h
      · exact List.mem_cons.mp h
      split at h
      · rcases List.mem_cons.mp h with h | h
        · exact .inl h
        · exact .inr (List.mem_cons_of_mem _ h)
      · rcases List.mem_cons.mp h with h | h
        · exact .inr (h ▸ List.mem_cons_self ..)
        · exact (ih h).imp_right (List.mem_cons_of_mem _)

theorem sorted_insertTag {k v : Text} {m : Tags} (h : (m.map Prod.fst).Pairwise (· < ·)) :
    ((insertTag k v m).map Prod.fst).Pairwise (· < ·) := by
  induction m with
  | nil => exact List.pairwise_singleton _ _
  | cons kv m ih =>
      obtain ⟨hkv, hm⟩ := List.pairwise_cons.mp h
      rw [insertTag]
      split
      · rename_i hlt
        refine List.pairwise_cons.mpr ⟨fun x hx => ?_, h⟩
        rcases List.mem_cons.mp hx with rfl | hx
        · exact hlt
        · exact hlt.trans (hkv x hx)
      split
      · rename_i heq
        exact List.pairwise_cons.mpr ⟨fun x hx => heq ▸ hkv x hx, hm⟩
      · rename_i hlt hne
        refine List.pairwise_cons.mpr ⟨fun x hx => ?_, ih hm⟩
        rcases mem_keys_insertTag hx with rfl | hx
        · exact lt_of_le_of_ne (not_lt.mp hlt) (Ne.symm hne)
        · exact hkv x hx

/-- **The tags of a context have each key once.** -/
theorem Ctx.tags_nodup (ctx : Ctx) (structural : Tags) :
    ((ctx.tags structural).map Prod.fst).Nodup := by
  have hsorted : ∀ m : Tags, (m.map Prod.fst).Pairwise (· < ·) →
      ((structural.foldl (fun m kv => insertTag kv.1 kv.2 m) m).map Prod.fst).Pairwise
        (· < ·) := by
    induction structural with
    | nil => exact fun m hm => hm
    | cons kv structural ih => exact fun m hm => ih _ (sorted_insertTag hm)
  exact (hsorted _ (sorted_insertTag ctx.sorted)).imp ne_of_lt

/-! ## Where the tags go -/

variable {d : Bool} {stop : Char → Bool} {raw raw' name : Text} {c : Char} {tags out : Tags}

/-- The scan's flag behind a text. -/
def flag (e : Bool) (s : Text) : Bool := s.foldl (fun e c => !e && c = '\\') e

theorem flag_append (e : Bool) (s t : Text) : flag e (s ++ t) = flag (flag e s) t :=
  List.foldl_append

/-- The flag is the parity of the backslashes just before. -/
theorem flag_iff (s : Text) :
    flag false s = true ↔ (s.rtakeWhile (· = '\\')).length % 2 = 1 := by
  induction s using List.reverseRecOn with
  | nil => simp [flag]
  | append_singleton s c ih =>
      rw [flag_append, List.rtakeWhile_concat]
      by_cases hc : c = '\\'
      · have hflip : flag (flag false s) [c] = !flag false s := by simp [flag, hc]
        rw [hflip, if_pos (by simpa using hc), List.length_append, List.length_singleton,
          Bool.not_eq_true', ← Bool.not_eq_true, ih]
        omega
      · have hnot : flag (flag false s) [c] = false := by simp [flag, hc]
        rw [hnot, if_neg (by simpa using hc)]
        simp

theorem boundary_cons (e : Bool) (c : Char) (s : Text) : boundary e (c :: s)
    = if !e && c = ' ' then some 0 else (boundary (!e && c = '\\') s).map (· + 1) := by
  cases e with
  | true => rfl
  | false =>
      rw [boundary]
      by_cases hback : c = '\\'
      · simp [hback]
      · by_cases hspace : c = ' ' <;> simp [hback, hspace]

theorem boundary_append (e : Bool) (s t : Text) : boundary e (s ++ t)
    = (boundary e s).or ((boundary (flag e s) t).map (· + s.length)) := by
  induction s generalizing e with
  | nil => simp [boundary, flag]
  | cons c s ih =>
      rw [List.cons_append, boundary_cons, boundary_cons, ih]
      split
      · rfl
      · rw [Option.map_or, Option.map_map]
        congr 1

/-- A space without the flag is where the tags go. -/
theorem boundary_eq_none_iff {e : Bool} {s : Text} :
    boundary e s = none ↔ ∀ u x, s = u ++ ' ' :: x → flag e u = true := by
  induction s generalizing e with
  | nil => simp [boundary]
  | cons c s ih =>
      rw [boundary_cons]
      constructor
      · intro h u x hsplit
        split at h
        · cases h
        rename_i hnot
        have hrest := ih.mp (Option.map_eq_none_iff.mp h)
        cases u with
        | nil =>
            obtain ⟨rfl, -⟩ := List.cons.inj hsplit
            simpa [flag] using hnot
        | cons a u =>
            obtain ⟨rfl, hs⟩ := List.cons.inj hsplit
            exact hrest u x hs
      · intro h
        have hnot : ¬ (!e && c = ' ') = true := by
          intro hspace
          simp only [Bool.and_eq_true, Bool.not_eq_true', decide_eq_true_eq] at hspace
          obtain ⟨he, rfl⟩ := hspace
          have htrue : e = true := h [] s rfl
          rw [he] at htrue
          cases htrue
        rw [if_neg hnot, Option.map_eq_none_iff, ih]
        exact fun u x hs => h (c :: u) x (by rw [hs]; rfl)

theorem exists_of_boundary {e : Bool} {s : Text} {pos : Nat} (h : boundary e s = some pos) :
    ∃ x, s = s.take pos ++ ' ' :: x := by
  induction s generalizing e pos with
  | nil => cases h
  | cons c s ih =>
      rw [boundary_cons] at h
      split at h
      · rename_i hspace
        cases h
        refine ⟨s, ?_⟩
        simp only [Bool.and_eq_true, decide_eq_true_eq] at hspace
        rw [List.take_zero, hspace.2]
        rfl
      · obtain ⟨q, hq, rfl⟩ := Option.map_eq_some_iff.mp h
        obtain ⟨x, hx⟩ := ih hq
        exact ⟨x, by rw [List.take_succ_cons, List.cons_append, ← hx]⟩

/-- Every space stands behind an odd number of backslashes. -/
def SpacesEscaped (s : Text) : Prop :=
  ∀ u x, s = u ++ ' ' :: x → (u.rtakeWhile (· = '\\')).length % 2 = 1

theorem spacesEscaped_iff {s : Text} : SpacesEscaped s ↔ boundary false s = none := by
  rw [boundary_eq_none_iff]
  exact forall₂_congr fun u x => imp_congr_right fun _ => (flag_iff u).symm

/-! ### What the scan sees of names and tags -/

/-- The scan goes through without a boundary, and ends without its flag. -/
def Through (s : Text) : Prop := boundary false s = none ∧ flag false s = false

theorem Through.append {s t : Text} (hs : Through s) (ht : Through t) : Through (s ++ t) := by
  refine ⟨?_, ?_⟩
  · rw [boundary_append, hs.1, hs.2, ht.1]
    rfl
  · rw [flag_append, hs.2, ht.2]

theorem through_singleton (hspace : c ≠ ' ') (hback : c ≠ '\\') : Through [c] := by
  simp [Through, boundary, flag, hspace, hback]

theorem through_escape (c : Char) : Through ['\\', c] := by
  simp [Through, boundary, flag]

theorem Through.tail {s : Text} (hspace : c ≠ ' ') (hback : c ≠ '\\') (h : Through (c :: s)) :
    Through s := by
  obtain ⟨hboundary, hflag⟩ := h
  rw [boundary_cons, if_neg (by simpa using hspace), Option.map_eq_none_iff] at hboundary
  simp only [hback, decide_false, Bool.and_false] at hboundary
  have hfirst : flag false [c] = false := by simp [flag, hback]
  have hcons : flag false (c :: s) = flag (flag false [c]) s := flag_append false [c] s
  rw [hcons, hfirst] at hflag
  exact ⟨hboundary, hflag⟩

/-- Where a backslash escapes a backslash too, the scan and the reader agree. -/
theorem Spells.through (h : Spells true stop raw name) (hstop : Lp.Stops stop) : Through raw := by
  induction h with
  | nil => exact ⟨rfl, rfl⟩
  | escaped he h ih => exact (through_escape _).append ih
  | backslash he h ih =>
      have hspace := ne_of_escapes_eq_false he (by decide : escapes true ' ' = true)
      have hback := ne_of_escapes_eq_false he (by decide : escapes true '\\' = true)
      exact (through_escape _).append (ih.tail hspace hback)
  | plain hne hgo h ih =>
      exact (through_singleton (hstop.ne_space hgo) hne).append ih

theorem SpellsTags.through (h : SpellsTags true raw tags) : Through raw := by
  induction h with
  | nil => exact ⟨rfl, rfl⟩
  | cons hkey hvalue hne h ih =>
      have hcomma := through_singleton (c := ',') (by decide) (by decide)
      have hequals := through_singleton (c := '=') (by decide) (by decide)
      exact (((hcomma.append (hkey.through Lp.stops_isSpecial)).append
        (hequals.append (hvalue.through Lp.stops_isSpecial)))).append ih

/-- Every space stands behind a backslash. -/
def Guarded (s : Text) : Prop := ∀ u x, s = u ++ ' ' :: x → u.getLast? = some '\\'

theorem Guarded.append {s t : Text} (hs : Guarded s) (ht : Guarded t) : Guarded (s ++ t) := by
  intro u x h
  rcases List.append_eq_append_iff.mp h with ⟨v, rfl, hv⟩ | ⟨v, rfl, hv⟩
  · have hlast := ht v x hv
    rw [List.getLast?_append, hlast]
    rfl
  · cases v with
    | nil => exact absurd (ht [] x hv.symm) (by simp)
    | cons a v =>
        obtain ⟨rfl, -⟩ := List.cons.inj hv
        exact hs u v rfl

theorem guarded_singleton (hspace : c ≠ ' ') : Guarded [c] := by
  intro u x h
  cases u with
  | nil => exact absurd (List.cons.inj h).1 hspace
  | cons a u => simp at h

theorem guarded_escape (c : Char) : Guarded ['\\', c] := by
  intro u x h
  cases u with
  | nil => exact absurd (List.cons.inj h).1 (by decide)
  | cons a u =>
      obtain ⟨rfl, hu⟩ := List.cons.inj h
      cases u with
      | nil => rfl
      | cons b u => simp at hu

theorem Spells.guarded (h : Spells d stop raw name) (hstop : Lp.Stops stop) : Guarded raw := by
  induction h with
  | nil => exact fun u x h => absurd h (by simp)
  | escaped he h ih => exact (guarded_escape _).append ih
  | backslash he h ih => exact (guarded_singleton (by decide)).append ih
  | plain hne hgo h ih => exact (guarded_singleton (hstop.ne_space hgo)).append ih

theorem SpellsTags.guarded (h : SpellsTags d raw tags) : Guarded raw := by
  induction h with
  | nil => exact fun u x h => absurd h (by simp)
  | cons hkey hvalue hne h ih =>
      have hcomma := guarded_singleton (c := ',') (by decide)
      have hequals := guarded_singleton (c := '=') (by decide)
      exact (((hcomma.append (hkey.guarded Lp.stops_isSpecial)).append
        (hequals.append (hvalue.guarded Lp.stops_isSpecial)))).append ih

theorem getLast_cons_ne {s : Text} (hback : c ≠ '\\') (hs : s.getLast? ≠ some '\\') :
    (c :: s).getLast? ≠ some '\\' := by
  cases s with
  | nil => simpa using hback
  | cons a s => rwa [List.getLast?_cons_cons]

theorem Spells.ne_nil (h : Spells d stop raw name) (hne : raw ≠ []) : name ≠ [] := by
  cases h with
  | nil => exact absurd rfl hne
  | escaped => exact List.cons_ne_nil _ _
  | backslash => exact List.cons_ne_nil _ _
  | plain => exact List.cons_ne_nil _ _

/-- Elsewhere no name ends in a backslash, nor does what is written for it. -/
theorem Spells.getLast_ne (h : Spells false stop raw name) :
    raw.getLast? ≠ some '\\' ∧ name.getLast? ≠ some '\\' := by
  induction h with
  | nil => simp
  | escaped he h ih =>
      have hback := Lp.special_ne_backslash ((special_of_escapes he).resolve_right (by simp))
      refine ⟨?_, getLast_cons_ne hback ih.2⟩
      rw [List.getLast?_cons_cons]
      exact getLast_cons_ne hback ih.1
  | backslash he h ih =>
      obtain ⟨b, name', hname⟩ := List.exists_cons_of_ne_nil (h.ne_nil (List.cons_ne_nil _ _))
      rw [List.getLast?_cons_cons, hname, List.getLast?_cons_cons, ← hname]
      exact ih
  | plain hne hgo h ih => exact ⟨getLast_cons_ne hne ih.1, getLast_cons_ne hne ih.2⟩

theorem SpellsTags.getLast_ne (h : SpellsTags false raw tags) :
    raw.getLast? ≠ some '\\' ∧ ∀ kv ∈ tags, kv.2.getLast? ≠ some '\\' := by
  induction h with
  | nil => simp
  | @cons rawKey key rawValue value raw tags hkey hvalue hne h ih =>
      refine ⟨?_, ?_⟩
      · have hvalueLast : (',' :: rawKey ++ '=' :: rawValue).getLast? ≠ some '\\' := by
          rw [List.getLast?_append_of_ne_nil _ (List.cons_ne_nil _ _)]
          exact getLast_cons_ne (by decide) hvalue.getLast_ne.1
        by_cases hnil : raw = []
        · rwa [hnil, List.append_nil]
        · rw [List.getLast?_append_of_ne_nil _ hnil]
          exact ih.1
      · rw [List.forall_mem_cons]
        exact ⟨hvalue.getLast_ne.2, ih.2⟩

/-- The scan's flag is down where the fields begin. -/
theorem flag_section {table : Text} (hspells : Spells d endsTable raw table)
    (htags : SpellsTags d raw' tags) : flag false (raw ++ raw') = false := by
  cases d with
  | true => exact ((hspells.through Lp.stops_endsTable).append htags.through).2
  | false =>
      have hlast : (raw ++ raw').getLast? ≠ some '\\' := by
        by_cases hnil : raw' = []
        · rw [hnil, List.append_nil]
          exact hspells.getLast_ne.1
        · rw [List.getLast?_append_of_ne_nil _ hnil]
          exact htags.getLast_ne.1
      rw [Bool.eq_false_iff]
      intro hflag
      rw [flag_iff] at hflag
      rcases List.eq_nil_or_concat (raw ++ raw') with hnil | ⟨u, c, hu⟩
      · rw [hnil] at hflag
        simp at hflag
      · rw [hu, List.concat_eq_append] at hflag hlast
        rw [List.rtakeWhile_concat, if_neg (by simpa using hlast)] at hflag
        simp at hflag

/-! ## Names that are read as they were -/

/-- A backslash is not taken with what stands behind it. -/
def parted (doubled : Bool) : Option Char → Bool
  | none => false
  | some c => !(doubled && escapes true c)

/-- No backslash is taken with what stands behind it. -/
def clean (doubled : Bool) : Text → Bool
  | [] => true
  | c :: t => (c ≠ '\\' || parted doubled t.head?) && clean doubled t

theorem clean_cons {s : Text} : clean d (c :: s) = true ↔
    (c = '\\' → parted d s.head? = true) ∧ clean d s = true := by
  simp [clean, imp_iff_not_or]

theorem escapeTag_special {s : Text} (hc : isSpecial c = true) :
    escapeTag (c :: s) = '\\' :: c :: escapeTag s := by
  have hin : c = ',' ∨ c = ' ' ∨ c = '=' := by
    simpa [isSpecial, or_assoc, or_comm (a := c = '=')] using hc
  rw [escapeTag, List.flatMap_cons, if_pos hin]
  rfl

theorem escapeTag_plain {s : Text} (hc : isSpecial c = false) :
    escapeTag (c :: s) = c :: escapeTag s := by
  have hout : ¬ (c = ',' ∨ c = ' ' ∨ c = '=') := by
    rintro (rfl | rfl | rfl) <;> cases hc
  rw [escapeTag, List.flatMap_cons, if_neg hout]
  rfl

/-- **A clean name is written as the reader takes it.** -/
theorem spells_escapeTag (h : clean d name = true) :
    Spells d isSpecial (escapeTag name) name := by
  induction name with
  | nil => exact .nil
  | cons c s ih =>
      obtain ⟨hparted, hs⟩ := clean_cons.mp h
      by_cases hc : isSpecial c = true
      · rw [escapeTag_special hc]
        exact .escaped (escapes_special hc) (ih hs)
      have hc := Bool.eq_false_iff.mpr hc
      rw [escapeTag_plain hc]
      by_cases hback : c = '\\'
      · subst hback
        have hspells := ih hs
        cases s with
        | nil => cases hparted rfl
        | cons b s =>
            have hb : (d && escapes true b) = false := (Bool.not_eq_true' _).mp (hparted rfl)
            by_cases hspecial : isSpecial b = true
            · rw [escapes_special hspecial, Bool.and_true] at hb
              rw [escapeTag_special hspecial] at hspells ⊢
              exact .backslash (by rw [hb]; decide) hspells
            · have hspecial := Bool.eq_false_iff.mpr hspecial
              rw [escapeTag_plain hspecial] at hspells ⊢
              refine .backslash ?_ hspells
              cases d with
              | true => simpa using hb
              | false => rw [escapes, hspecial]; rfl
      · exact .plain hback hc (ih hs)

theorem spellsTags_tagText (h : ∀ kv ∈ tags, (clean d kv.1 = true ∧ clean d kv.2 = true) ∧
    kv.1 ≠ [] ∧ kv.2 ≠ []) : SpellsTags d (tagText tags) tags := by
  induction tags with
  | nil => exact .nil
  | cons kv tags ih =>
      obtain ⟨⟨hkey, hvalue⟩, hne⟩ := h kv (List.mem_cons_self ..)
      exact .cons (spells_escapeTag hkey) (spells_escapeTag hvalue) hne
        (ih fun x hx => h x (List.mem_cons_of_mem _ hx))

/-! ## Other readings -/

/-- Characters other than backslashes; no reader adds or drops one. -/
def solid (s : Text) : Nat := s.countP (· ≠ '\\')

theorem solid_append (s t : Text) : solid (s ++ t) = solid s + solid t := List.countP_append

theorem solid_cons (c : Char) (s : Text) : solid (c :: s) = solid [c] + solid s :=
  solid_append [c] s

theorem solid_backslash (s : Text) : solid ('\\' :: s) = solid s := by
  rw [solid_cons, show solid ['\\'] = 0 from rfl, Nat.zero_add]

/-- What a name can be written as is no shorter than the escaped name, and longer where the name
is not clean. -/
theorem Spells.weight (h : Spells d isSpecial raw name) :
    solid raw = solid name ∧ (escapeTag name).length ≤ raw.length ∧
      ((escapeTag name).length = raw.length → clean d name = true) := by
  induction h with
  | nil => exact ⟨rfl, Nat.le_refl _, fun _ => rfl⟩
  | @escaped c raw name he h ih =>
      obtain ⟨hsolid, hlength, hclean⟩ := ih
      refine ⟨?_, ?_⟩
      · rw [solid_backslash, solid_cons, hsolid, ← solid_cons]
      by_cases hc : isSpecial c = true
      · rw [escapeTag_special hc]
        simp only [List.length_cons]
        refine ⟨by omega, fun heq => clean_cons.mpr ⟨fun hback => ?_, hclean (by omega)⟩⟩
        exact absurd hback (Lp.special_ne_backslash hc)
      · -- a backslash written as two
        rw [escapeTag_plain (Bool.eq_false_iff.mpr hc)]
        simp only [List.length_cons]
        exact ⟨by omega, fun heq => by omega⟩
  | @backslash c raw name he h ih =>
      obtain ⟨hsolid, hlength, hclean⟩ := ih
      rw [escapeTag_plain (by decide)]
      simp only [List.length_cons] at hlength hclean ⊢
      refine ⟨?_, by omega, fun heq => clean_cons.mpr ⟨fun _ => ?_, hclean (by omega)⟩⟩
      · rw [solid_backslash, solid_backslash, hsolid]
      · -- the name goes on with the character behind the backslash
        cases d with
        | false =>
            obtain ⟨b, s, rfl⟩ := List.exists_cons_of_ne_nil (h.ne_nil (List.cons_ne_nil _ _))
            rfl
        | true =>
            have hback := ne_of_escapes_eq_false he (by decide : escapes true '\\' = true)
            cases h with
            | escaped => exact absurd rfl hback
            | backslash => exact absurd rfl hback
            | plain hne hgo h => simp [parted, he]
  | @plain c raw name hne hgo h ih =>
      obtain ⟨hsolid, hlength, hclean⟩ := ih
      rw [escapeTag_plain hgo]
      simp only [List.length_cons]
      refine ⟨?_, by omega, fun heq => clean_cons.mpr ⟨fun hback => absurd hback hne,
        hclean (by omega)⟩⟩
      rw [solid_cons, hsolid, ← solid_cons]

theorem solid_escapeTag (s : Text) : solid (escapeTag s) = solid s := by
  induction s with
  | nil => rfl
  | cons c s ih =>
      by_cases hc : isSpecial c = true
      · rw [escapeTag_special hc, solid_backslash, solid_cons, ih, ← solid_cons]
      · rw [escapeTag_plain (Bool.eq_false_iff.mpr hc), solid_cons, ih, ← solid_cons]

theorem tagText_cons (k v : Text) (tags : Tags) : tagText ((k, v) :: tags)
    = ',' :: escapeTag k ++ '=' :: escapeTag v ++ tagText tags := rfl

theorem SpellsTags.weight (h : SpellsTags d raw tags) :
    solid raw = solid (tagText tags) ∧ (tagText tags).length ≤ raw.length ∧
      ((tagText tags).length = raw.length →
        ∀ kv ∈ tags, clean d kv.1 = true ∧ clean d kv.2 = true) := by
  induction h with
  | nil => exact ⟨rfl, Nat.le_refl _, fun _ => List.forall_mem_nil _⟩
  | @cons rawKey key rawValue value raw tags hkey hvalue hne h ih =>
      obtain ⟨hkeySolid, hkeyLength, hkeyClean⟩ := hkey.weight
      obtain ⟨hvalueSolid, hvalueLength, hvalueClean⟩ := hvalue.weight
      obtain ⟨hsolid, hlength, hclean⟩ := ih
      rw [tagText_cons]
      refine ⟨?_, ?_⟩
      · have hcomma (s : Text) : solid (',' :: s) = 1 + solid s := solid_cons ',' s
        have hequals (s : Text) : solid ('=' :: s) = 1 + solid s := solid_cons '=' s
        simp only [solid_append, List.cons_append, hcomma, hequals, solid_escapeTag]
        omega
      · simp only [List.length_append, List.length_cons]
        refine ⟨by omega, fun heq => ?_⟩
        rw [List.forall_mem_cons]
        exact ⟨⟨hkeyClean (by omega), hvalueClean (by omega)⟩, hclean (by omega)⟩

/-- **What the written tags read as, if it is no other set of them, is they themselves**, and
every name in them is clean. -/
theorem SpellsTags.perm (h : SpellsTags d (tagText tags) out) (hnodup : out.Nodup)
    (hsub : out ⊆ tags) : List.Perm tags out ∧
      ∀ kv ∈ tags, clean d kv.1 = true ∧ clean d kv.2 = true := by
  obtain ⟨hsolid, -, hclean⟩ := h.weight
  obtain ⟨out', hout', hsublist⟩ := List.subperm_of_subset hnodup hsub
  obtain ⟨missing, hmissing⟩ := hsublist.exists_perm_append
  have hperm : List.Perm tags (out ++ missing) := hmissing.trans (hout'.append_right missing)
  have htext : List.Perm (tagText tags) (tagText out ++ tagText missing) := by
    rw [tagText, tagText, tagText, ← List.flatMap_append]
    exact hperm.flatMap_right _
  have hnone : missing = [] := by
    have hcount : solid (tagText tags) = solid (tagText out ++ tagText missing) :=
      htext.countP_eq _
    rw [solid_append] at hcount
    cases missing with
    | nil => rfl
    | cons kv missing =>
        have hpos : 0 < solid (tagText (kv :: missing)) :=
          List.countP_pos_iff.mpr ⟨',', List.mem_cons_self .., by decide⟩
        omega
  subst hnone
  rw [List.append_nil] at hperm
  have hlength : (tagText out).length = (tagText tags).length := by
    rw [htext.length_eq, List.length_append]
    rfl
  exact ⟨hperm, fun kv hkv => hclean hlength kv (hperm.subset hkv)⟩

/-! ## Lines with the tags -/

/-- The measurement and the tags of a line, as they are written. -/
def measured (line : Text) (p : Point) : Text := line.take (line.length - (p.fields.length + 1))

theorem measured_eq {s : Text} {p : Point} : measured (s ++ ' ' :: p.fields) p = s := by
  simp [measured]

/-- The line with the tags reads as the same with its own tags and these, each key once. -/
def Merged (doubled : Bool) (line : Text) (p : Point) (tags : Tags) : Prop :=
  ∃ out, readLine doubled (injectTags line tags) = some { p with tags := out } ∧
    (out.map Prod.fst).Nodup ∧ ∀ kv, kv ∈ out ↔ kv ∈ p.tags ∨ kv ∈ tags

/-- The tags go before the fields, and none is taken for another. -/
structure Fits (doubled : Bool) (line : Text) (p : Point) (tags : Tags) : Prop where
  spaces : SpacesEscaped (measured line p)
  fresh : ∀ kv ∈ tags, kv.1 ∉ p.tags.map Prod.fst
  clean : ∀ kv ∈ tags, clean doubled kv.1 = true ∧ clean doubled kv.2 = true
  lines : ∀ kv ∈ tags, '\n' ∉ kv.1 ∧ '\n' ∉ kv.2

theorem injectTags_of_boundary {line : Text} {pos : Nat} (hne : tags ≠ [])
    (h : boundary false line = some pos) :
    injectTags line tags = line.take pos ++ tagText tags ++ line.drop pos := by
  rw [injectTags, if_neg hne]
  simp only [h]

theorem mem_tagText {kv : Text × Text} (hkv : kv ∈ tags) (h : c ∈ kv.1 ∨ c ∈ kv.2) :
    c ∈ tagText tags := by
  have hescape : ∀ {s : Text}, c ∈ s → c ∈ escapeTag s := by
    intro s hc
    refine List.mem_flatMap.mpr ⟨c, hc, ?_⟩
    split <;> simp
  refine List.mem_flatMap.mpr ⟨kv, hkv, ?_⟩
  rcases h with h | h
  · simp [hescape h]
  · simp [hescape h]

section

variable {line : Text} {p : Point} {rawTable rawTags : Text}

/-- Where the scan finds the fields, the tags stand just before them. -/
theorem injectTags_aligned (hspells : Spells d endsTable rawTable p.table)
    (htags : SpellsTags d rawTags p.tags) (hne : tags ≠ [])
    (hspaces : boundary false (rawTable ++ rawTags) = none) :
    injectTags (rawTable ++ (rawTags ++ ' ' :: p.fields)) tags
      = rawTable ++ (rawTags ++ tagText tags ++ ' ' :: p.fields) := by
  have hboundary : boundary false (rawTable ++ rawTags ++ ' ' :: p.fields)
      = some (rawTable ++ rawTags).length := by
    rw [boundary_append, hspaces, flag_section hspells htags]
    simp [boundary]
  rw [← List.append_assoc, injectTags_of_boundary hne hboundary, List.take_left, List.drop_left]
  simp

/-- **Tags that fit are merged.** -/
theorem merged_of_fits (hline : readLine d line = some p) (hown : (p.tags.map Prod.fst).Nodup)
    (hkeys : (tags.map Prod.fst).Nodup) (hne : ∀ kv ∈ tags, kv.1 ≠ [] ∧ kv.2 ≠ [])
    (h : tags = [] ∨ Fits d line p tags) : Merged d line p tags := by
  rcases h with rfl | h
  · exact ⟨p.tags, hline, hown, by simp⟩
  by_cases hnil : tags = []
  · subst hnil
    exact ⟨p.tags, hline, hown, by simp⟩
  obtain ⟨hnewline, htable, rawTable, rawTags, hspells, htags, rfl⟩ :=
    readLine_eq_some_iff.mp hline
  have hspaces : boundary false (rawTable ++ rawTags) = none := by
    have := spacesEscaped_iff.mp h.spaces
    rwa [← List.append_assoc, measured_eq] at this
  have hmore := spellsTags_tagText fun kv hkv => ⟨h.clean kv hkv, hne kv hkv⟩
  refine ⟨p.tags ++ tags, readLine_eq_some_iff.mpr ⟨?_, htable, rawTable,
    rawTags ++ tagText tags, hspells, htags.append hmore, ?_⟩, ?_, fun kv => List.mem_append⟩
  · exact newline_not_mem_injectTags hnewline h.lines
  · exact injectTags_aligned hspells htags hnil hspaces
  · rw [List.map_append, List.nodup_append]
    refine ⟨hown, hkeys, ?_⟩
    rintro k hk k' hk' rfl
    obtain ⟨kv, hkv, rfl⟩ := List.mem_map.mp hk'
    exact h.fresh kv hkv hk

/-- A text is written for one name, and one rest. -/
theorem Spells.split {name' raw' : Text} {x y : Text} (h : Spells d stop raw name)
    (h' : Spells d stop raw' name') (hstop : Lp.Stops stop)
    (hends : ∀ c, c = ',' ∨ c = ' ' → stop c = true) (hx : Ends x) (hy : Ends y)
    (heq : raw ++ x = raw' ++ y) : x = y := by
  obtain ⟨c, u, rfl, hc⟩ := hx
  obtain ⟨c', u', rfl, hc'⟩ := hy
  have hread := h.scan hstop (hends c hc) u
  rw [heq, h'.scan hstop (hends c' hc') u'] at hread
  exact (Prod.mk.inj hread).2.symm

/-- The first of some tags are those that are written first. -/
theorem SpellsTags.split {x : Text} (h : SpellsTags d raw tags) (h' : SpellsTags d (raw ++ x) out)
    (hx : ∀ r, Ends (x ++ ' ' :: r)) : ∃ out', out = tags ++ out' ∧ SpellsTags d x out' := by
  have hwhole := h'.readTags ⟨' ', [], rfl, .inr rfl⟩ (tags.length + 1)
  have hfirst := h.readTags (hx []) (out.length + 1)
  have hend : Exec.readTags d (tags.length + 1) [' '] = some ([], [' ']) := by
    rw [Exec.readTags]
    simp
  have hfuel : tags.length + (out.length + 1) = out.length + (tags.length + 1) := by omega
  rw [hend, List.append_assoc, ← hfuel, hfirst] at hwhole
  obtain ⟨⟨out', r⟩, hrest, heq⟩ := Option.map_eq_some_iff.mp hwhole
  obtain ⟨hout, rfl⟩ := Prod.mk.inj heq
  obtain ⟨raw', hraw, hspells⟩ := spellsTags_of_readTags hrest
  rw [List.append_cancel_right hraw]
  exact ⟨out', by simpa using hout.symm, hspells⟩

theorem ends_tagText (tags : Tags) (r : Text) : Ends (tagText tags ++ ' ' :: r) := by
  cases tags with
  | nil => exact ⟨' ', r, rfl, .inr rfl⟩
  | cons kv tags => exact ⟨',', _, rfl, .inl rfl⟩

theorem getLast_tagText {ts : Tags} {k v : Text} (hv : v ≠ []) :
    (tagText (ts ++ [(k, v)])).getLast? = v.getLast? := by
  obtain ⟨u, c, rfl⟩ := (List.eq_nil_or_concat v).resolve_left hv
  have hvalue : (escapeTag (u.concat c)).getLast? = some c := by
    rw [escapeTag, List.concat_eq_append, List.flatMap_append, List.flatMap_singleton]
    split <;> simp
  rw [tagText, List.flatMap_append, List.flatMap_singleton, List.getLast?_append,
    List.getLast?_append]
  simp only [List.getLast?_cons, hvalue]
  simp

/-- **What stands with the wrong space is not merged**: the reader would take the space behind
the tags for an escaped one, and their last value for another. -/
theorem not_merged_of_space {pos : Nat} (hspells : Spells d endsTable rawTable p.table)
    (htags : SpellsTags d rawTags p.tags) (hnil : tags ≠ [])
    (hne : ∀ kv ∈ tags, kv.1 ≠ [] ∧ kv.2 ≠ [])
    (hpos : boundary false (rawTable ++ rawTags) = some pos) :
    ¬ Merged d (rawTable ++ (rawTags ++ ' ' :: p.fields)) p tags := by
  rintro ⟨out, hread, -, hmem⟩
  cases d with
  | true =>
      rw [((hspells.through Lp.stops_endsTable).append htags.through).1] at hpos
      cases hpos
  | false =>
      obtain ⟨x, hx⟩ := exists_of_boundary hpos
      have hle : pos ≤ (rawTable ++ rawTags).length := by
        have := congrArg List.length hx
        simp only [List.length_append, List.length_cons, List.length_take] at this ⊢
        omega
      have hboundary : boundary false (rawTable ++ (rawTags ++ ' ' :: p.fields)) = some pos := by
        rw [← List.append_assoc, boundary_append, hpos]
        rfl
      rw [injectTags_of_boundary hnil hboundary] at hread
      obtain ⟨-, -, rawTable', rawTags', hspells', htags', hsplit⟩ := readLine_eq_some_iff.mp hread
      -- what is read as measurement and tags has the space in it
      have hsection : rawTable' ++ rawTags' = (rawTable ++ rawTags).take pos ++ tagText tags
          ++ ' ' :: x := by
        have hdrop : (rawTable ++ rawTags).drop pos = ' ' :: x :=
          List.append_cancel_left ((List.take_append_drop ..).trans hx)
        rw [← List.append_assoc rawTable, List.take_append_of_le_length hle,
          List.drop_append_of_le_length hle, hdrop, ← List.append_assoc,
          ← List.append_assoc rawTable'] at hsplit
        exact (List.append_cancel_right hsplit).symm
      have hlast := (hspells'.guarded Lp.stops_endsTable).append htags'.guarded _ _ hsection
      obtain ⟨ts, ⟨k, v⟩, rfl⟩ := (List.eq_nil_or_concat tags).resolve_left hnil
      rw [List.concat_eq_append] at hlast hmem
      have hin : (k, v) ∈ ts.concat (k, v) := by simp
      have hv := (hne _ hin).2
      rw [List.getLast?_append, getLast_tagText hv] at hlast
      have hread := htags'.getLast_ne.2 (k, v) ((hmem _).mpr (.inr (by simp)))
      obtain ⟨c, hc⟩ : ∃ c, v.getLast? = some c := ⟨_, List.getLast?_eq_getLast_of_ne_nil hv⟩
      rw [hc] at hlast hread
      exact hread hlast

/-- **Tags that are merged fit.** -/
theorem fits_of_merged (hline : readLine d line = some p)
    (hnil : tags ≠ []) (hne : ∀ kv ∈ tags, kv.1 ≠ [] ∧ kv.2 ≠ [])
    (h : Merged d line p tags) : Fits d line p tags := by
  obtain ⟨hnewline, htable, rawTable, rawTags, hspells, htags, rfl⟩ :=
    readLine_eq_some_iff.mp hline
  cases hspaces : boundary false (rawTable ++ rawTags) with
  | some pos => exact absurd h (not_merged_of_space hspells htags hnil hne hspaces)
  | none =>
      obtain ⟨out, hread, hnodup, hmem⟩ := h
      rw [injectTags_aligned hspells htags hnil hspaces] at hread
      obtain ⟨hlines, -, rawTable', rawTags', hspells', htags', hsplit⟩ :=
        readLine_eq_some_iff.mp hread
      have hrest : rawTags ++ tagText tags ++ ' ' :: p.fields = rawTags' ++ ' ' :: p.fields := by
        refine hspells.split hspells' Lp.stops_endsTable ?_ ?_ (htags'.ends ⟨' ', _, rfl, .inr rfl⟩)
          hsplit
        · rintro c (rfl | rfl) <;> decide
        · rw [List.append_assoc]
          exact htags.ends (ends_tagText tags p.fields)
      rw [← List.append_cancel_right hrest] at htags'
      obtain ⟨out', rfl, hout'⟩ := htags.split htags' (ends_tagText tags)
      rw [List.map_append, List.nodup_append] at hnodup
      have hfresh : ∀ kv ∈ out', kv.1 ∉ p.tags.map Prod.fst := fun kv hkv hown =>
        hnodup.2.2 _ hown _ (List.mem_map_of_mem hkv) rfl
      have hsub : out' ⊆ tags := fun kv hkv =>
        ((hmem kv).mp (List.mem_append_right _ hkv)).resolve_left
          fun hown => hfresh kv hkv (List.mem_map_of_mem hown)
      obtain ⟨hperm, hclean⟩ := hout'.perm (List.Nodup.of_map _ hnodup.2.1) hsub
      have htext : '\n' ∉ tagText tags := fun hin => hlines (by simp [hin])
      refine ⟨?_, fun kv hkv => hfresh kv (hperm.subset hkv), hclean, fun kv hkv =>
        ⟨fun hin => htext (mem_tagText hkv (.inl hin)),
          fun hin => htext (mem_tagText hkv (.inr hin))⟩⟩
      rw [← List.append_assoc, measured_eq]
      exact spacesEscaped_iff.mpr hspaces

end

/-- A reader that lets backslashes be escaped finds the spaces where the scan does. -/
theorem spacesEscaped_of_readLine {line : Text} {p : Point} (h : readLine true line = some p) :
    SpacesEscaped (measured line p) := by
  obtain ⟨-, -, rawTable, rawTags, hspells, htags, rfl⟩ := readLine_eq_some_iff.mp h
  rw [← List.append_assoc, measured_eq, spacesEscaped_iff]
  exact ((hspells.through Lp.stops_endsTable).append htags.through).1

/-- **The global tags are merged into a line** exactly where there are none, or every space in
its measurement and tags stands behind an odd number of backslashes, no global tag has a key of
the line's own, and every global key and value is clean and on one line. -/
theorem tags_merged_iff (doubled : Bool) {line : Text} {p : Point} (tags : Tags)
    (hline : readLine doubled line = some p) (hown : (p.tags.map Prod.fst).Nodup)
    (hkeys : (tags.map Prod.fst).Nodup) (hne : ∀ kv ∈ tags, kv.1 ≠ [] ∧ kv.2 ≠ []) :
    Merged doubled line p tags ↔ tags = [] ∨ Fits doubled line p tags := by
  refine ⟨fun h => ?_, merged_of_fits hline hown hkeys hne⟩
  by_cases hnil : tags = []
  · exact .inl hnil
  · exact .inr (fits_of_merged hline hnil hne h)

/-- A line with an escaped space gets the host. -/
theorem host_merged : Merged true "my\\ app,dc=a value=5".toList
    ⟨"my app".toList, [("dc".toList, ['a'])], "value=5".toList⟩
    [("host".toList, "h 1".toList)] :=
  (tags_merged_iff true _ (by decide) (by decide) (by decide) (by decide)).mpr
    (.inr ⟨spacesEscaped_iff.mpr (by decide), by decide, by decide, by decide⟩)

/-- A host of the line's own beside the agent's. -/
theorem host_twice :
    readLine true "m,host=a v=1".toList
        = some ⟨['m'], [("host".toList, ['a'])], "v=1".toList⟩ ∧
      ¬ Merged true "m,host=a v=1".toList ⟨['m'], [("host".toList, ['a'])], "v=1".toList⟩
        [("host".toList, "h1".toList)] := by
  refine ⟨by decide, ?_⟩
  rintro ⟨out, hread, hnodup, -⟩
  have hout : readLine true (injectTags "m,host=a v=1".toList [("host".toList, "h1".toList)])
      = some ⟨['m'], [("host".toList, ['a']), ("host".toList, "h1".toList)], "v=1".toList⟩ := by
    decide
  rw [hout] at hread
  cases hread
  exact absurd hnodup (by decide)

end Tributary.Exec
