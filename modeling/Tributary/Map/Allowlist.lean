import Tributary.Map

/-!
# The tag allowlist

Tags are gathered from six places and the last one of a key wins. Of a parsed line only
the listed keys are read; the labels the configuration gives and those of the path come
after them.
-/

namespace Tributary

/-! ## Ordered maps -/

namespace BTree

variable {α : Type} {k : Text} {v : α} {e : Text × α} {m es : List (Text × α)}

/-- The keys ascend, so that none is there twice. -/
def Sorted (m : List (Text × α)) : Prop := m.Pairwise fun e f => e.1 < f.1

theorem mem_insert (h : e ∈ insert k v m) : e = (k, v) ∨ e ∈ m := by
  induction m with
  | nil => exact .inl (List.mem_singleton.mp h)
  | cons f m ih =>
      rw [insert] at h
      split at h
      · exact List.mem_cons.mp h
      · split at h
        · exact (List.mem_cons.mp h).imp_right (List.mem_cons_of_mem _)
        · rcases List.mem_cons.mp h with rfl | h
          · exact .inr (List.mem_cons_self ..)
          · exact (ih h).imp_right (List.mem_cons_of_mem _)

theorem Sorted.insert (h : Sorted m) (k : Text) (v : α) : Sorted (insert k v m) := by
  induction m with
  | nil => exact List.pairwise_singleton _ _
  | cons f m ih =>
      obtain ⟨hf, hm⟩ := List.pairwise_cons.mp h
      rw [BTree.insert]
      split
      · rename_i hlt
        refine List.pairwise_cons.mpr ⟨fun g hg => ?_, h⟩
        rcases List.mem_cons.mp hg with rfl | hg
        · exact hlt
        · exact lt_trans hlt (hf g hg)
      · rename_i hle
        split
        · rename_i heq
          exact List.pairwise_cons.mpr ⟨fun g hg => heq ▸ hf g hg, hm⟩
        · rename_i hne
          refine List.pairwise_cons.mpr ⟨fun g hg => ?_, ih hm⟩
          rcases mem_insert hg with rfl | hg
          · exact lt_of_le_of_ne (not_lt.mp hle) (Ne.symm hne)
          · exact hf g hg

theorem sorted_collect (es : List (Text × α)) : Sorted (collect es) := by
  induction es using List.reverseRecOn with
  | nil => exact List.Pairwise.nil
  | append_singleton es e ih =>
      rw [collect_concat]
      exact ih.insert e.1 e.2

theorem mem_collect (h : e ∈ collect es) : e ∈ es := by
  induction es using List.reverseRecOn with
  | nil => cases h
  | append_singleton es f ih =>
      rw [collect_concat] at h
      rcases mem_insert h with rfl | h
      · simp
      · exact List.mem_append_left _ (ih h)

theorem get_cons (e : Text × α) (m : List (Text × α)) (k : Text) :
    get (e :: m) k = if e.1 = k then some e.2 else get m k := by
  by_cases h : e.1 = k <;> simp [get, h]

theorem get_append (l m : List (Text × α)) (k : Text) :
    get (l ++ m) k = (get l k).or (get m k) := by
  induction l with
  | nil => rfl
  | cons e l ih =>
      rw [List.cons_append, get_cons, get_cons, ih]
      split <;> rfl

/-- **The last pair of a key wins.** -/
theorem get_collect (es : List (Text × α)) (k : Text) : get (collect es) k = get es.reverse k := by
  induction es using List.reverseRecOn with
  | nil => rfl
  | append_singleton es e ih =>
      rw [collect_concat, get_insert, List.reverse_append, List.reverse_singleton,
        List.singleton_append, get_cons, ih]
      simp only [eq_comm]

end BTree

namespace Map

open Lp

variable {libs : Libs} {src : Source} {parsed parsed' : List (Text × Json)} {key : Text}
  {ts ts' : Int} {record : Record}

/-! ## What is read of a line -/

/-- The two agree on the keys the source lists. -/
def AgreeOnListed (src : Source) (parsed parsed' : List (Text × Json)) : Prop :=
  ∀ key, key ∈ src.tags ∨ key ∈ src.fields.map (·.1) →
    BTree.get parsed key = BTree.get parsed' key

theorem buildFields_congr {fields : List (Text × FieldType)}
    (h : ∀ key ∈ fields.map (·.1), BTree.get parsed key = BTree.get parsed' key) :
    buildFields libs parsed fields = buildFields libs parsed' fields := by
  induction fields with
  | nil => rfl
  | cons f fields ih =>
      obtain ⟨key, want⟩ := f
      rw [List.map_cons, List.forall_mem_cons] at h
      simp only [buildFields]
      rw [h.1, ih h.2]

theorem seedTags_congr (h : ∀ key ∈ src.tags, BTree.get parsed key = BTree.get parsed' key) :
    seedTags libs src parsed = seedTags libs src parsed' := by
  have hallowed : src.tags.filterMap (allowedTag libs parsed)
      = src.tags.filterMap (allowedTag libs parsed') := by
    apply List.filterMap_congr
    intro key hkey
    rw [allowedTag, allowedTag, h key hkey]
  rw [seedTags, seedTags, hallowed]

/-- **Keys that are not listed do not matter**, neither to the record nor to the error. -/
theorem buildRecord_congr (h : AgreeOnListed src parsed parsed') (ts : Int) :
    buildRecord libs src parsed ts = buildRecord libs src parsed' ts := by
  have hfields : buildFields libs parsed src.fields = buildFields libs parsed' src.fields :=
    buildFields_congr fun key hkey => h key (.inr hkey)
  have htags : seedTags libs src parsed = seedTags libs src parsed' :=
    seedTags_congr fun key hkey => h key (.inl hkey)
  have hrecord (fields : List (Text × Value)) :
      recordOf libs src parsed fields = recordOf libs src parsed' fields := by
    rw [recordOf, recordOf, htags]
  simp only [buildRecord, hfields, hrecord]

theorem buildRecord_ok (h : buildRecord libs src parsed ts = .ok (record, ts')) :
    ∃ fields, buildFields libs parsed src.fields = .ok fields
      ∧ record = recordOf libs src parsed fields ∧ ts' = ts := by
  cases hf : buildFields libs parsed src.fields with
  | error e => simp [buildRecord, bind, Except.bind, hf] at h
  | ok fields =>
      simp only [buildRecord, bind, Except.bind, hf, Except.ok.injEq, Prod.mk.injEq] at h
      exact ⟨fields, rfl, h.1.symm, h.2.symm⟩

/-! ## Where tags come from -/

/-- The tags of the path, if the source asks for them and the path is a container's. -/
def pathTags (src : Source) : List (Text × Text) :=
  if src.kubernetes then
    match K8s.parseCriPath src.path with
    | some m => [("namespace".toList, m.namespace_), ("pod".toList, m.pod),
        ("container".toList, m.container)]
    | none => []
  else []

theorem seedTags_eq (libs : Libs) (src : Source) (parsed : List (Text × Json)) :
    seedTags libs src parsed = [("stream".toList, src.name)] ++ src.tagsStatic
      ++ src.tags.filterMap (allowedTag libs parsed)
      ++ src.visibility.toList.map (fun vis => ("_visibility".toList, vis)) ++ pathTags src := rfl

/-- The keys a record of the source may be tagged with. -/
inductive Permitted (src : Source) : Text → Prop
  | stream : Permitted src "stream".toList
  | static {tag : Text × Text} (h : tag ∈ src.tagsStatic) : Permitted src tag.1
  | listed {key : Text} (h : key ∈ src.tags) : Permitted src key
  | visibility (h : src.visibility.isSome = true) : Permitted src "_visibility".toList
  | path {key : Text} (hk : src.kubernetes = true)
      (h : key ∈ ["namespace".toList, "pod".toList, "container".toList]) : Permitted src key

theorem pathTags_cases (src : Source) :
    pathTags src = [] ∨ src.kubernetes = true ∧ ∃ m : K8s.CriMeta,
      pathTags src = [("namespace".toList, m.namespace_), ("pod".toList, m.pod),
        ("container".toList, m.container)] := by
  unfold pathTags
  split
  · rename_i hk
    split
    · rename_i m _
      exact .inr ⟨hk, m, rfl⟩
    · exact .inl rfl
  · exact .inl rfl

theorem mem_pathTags {tag : Text × Text} (h : tag ∈ pathTags src) :
    src.kubernetes = true ∧ tag.1 ∈ ["namespace".toList, "pod".toList, "container".toList] := by
  rcases pathTags_cases src with hnil | ⟨hk, m, htags⟩
  · rw [hnil] at h
    cases h
  · rw [htags] at h
    exact ⟨hk, List.mem_map_of_mem (f := (·.1)) h⟩

theorem permitted_of_mem {tag : Text × Text} (h : tag ∈ seedTags libs src parsed) :
    Permitted src tag.1 := by
  rw [seedTags_eq] at h
  simp only [List.mem_append, List.mem_singleton, List.mem_filterMap, List.mem_map,
    Option.mem_toList] at h
  rcases h with (((rfl | h) | ⟨key, hkey, h⟩) | ⟨vis, hvis, rfl⟩) | h
  · exact .stream
  · exact .static h
  · obtain ⟨v, -, h⟩ := Option.bind_eq_some_iff.mp h
    split at h
    · cases h
    · cases h
      exact .listed hkey
  · exact .visibility (by rw [hvis]; rfl)
  · exact .path (mem_pathTags h).1 (mem_pathTags h).2

/-! ## Which of them survives -/

/-- The value a listed key has in a line, if that makes a tag. -/
def listedTag (libs : Libs) (src : Source) (parsed : List (Text × Json)) (key : Text) :
    Option Text :=
  if key ∈ src.tags then (allowedTag libs parsed key).map (·.2) else none

theorem get_listed {tags : List Text} :
    BTree.get (tags.filterMap (allowedTag libs parsed)) key
      = if key ∈ tags then (allowedTag libs parsed key).map (·.2) else none := by
  have hkey : ∀ t tag, allowedTag libs parsed t = some tag → tag.1 = t := by
    intro t tag h
    obtain ⟨v, -, h⟩ := Option.bind_eq_some_iff.mp h
    split at h
    · cases h
    · cases h
      rfl
  induction tags with
  | nil => rfl
  | cons t tags ih =>
      rw [List.filterMap_cons]
      cases ht : allowedTag libs parsed t with
      | none =>
          by_cases heq : key = t
          · subst heq
            simp [ih, ht]
          · simp [ih, heq]
      | some tag =>
          rw [BTree.get_cons, hkey t tag ht, ih]
          by_cases heq : t = key
          · subst heq
            simp [ht]
          · simp [heq, Ne.symm heq]

theorem get_visibility (src : Source) (key : Text) :
    BTree.get (src.visibility.toList.map fun vis => ("_visibility".toList, vis)) key
      = if "_visibility".toList = key then src.visibility else none := by
  cases src.visibility with
  | none => exact (ite_self none).symm
  | some vis => rw [Option.toList_some, List.map_singleton, BTree.get_cons]; rfl

/-- **The value of a tag**: of the path, else the visibility label, else of the line, else
the static one, else the identity of the stream. -/
theorem get_tags (libs : Libs) (src : Source) (parsed : List (Text × Json))
    (fields : List (Text × Value)) (key : Text) :
    BTree.get (recordOf libs src parsed fields).tags key
      = (BTree.get (pathTags src).reverse key).or
          ((if "_visibility".toList = key then src.visibility else none).or
            ((listedTag libs src parsed key).or
              ((BTree.get src.tagsStatic.reverse key).or
                (if "stream".toList = key then some src.name else none)))) := by
  have hvis : (src.visibility.toList.map fun vis => ("_visibility".toList, vis)).reverse
      = src.visibility.toList.map fun vis => ("_visibility".toList, vis) := by
    cases src.visibility <;> rfl
  have hlisted : BTree.get (src.tags.filterMap (allowedTag libs parsed)).reverse key
      = listedTag libs src parsed key := by
    rw [← List.filterMap_reverse, get_listed, listedTag]
    simp only [List.mem_reverse]
  have hstream : BTree.get [("stream".toList, src.name)].reverse key
      = if "stream".toList = key then some src.name else none := by
    rw [List.reverse_singleton, BTree.get_cons]
    rfl
  show BTree.get (BTree.collect (seedTags libs src parsed)) key = _
  rw [BTree.get_collect, seedTags_eq]
  simp only [List.reverse_append, BTree.get_append]
  rw [hvis, get_visibility, hlisted, hstream]

/-- Each label of the path has its own key. -/
theorem get_pathTags {tag : Text × Text} (h : tag ∈ pathTags src) :
    BTree.get (pathTags src).reverse tag.1 = some tag.2 := by
  rcases pathTags_cases src with hnil | ⟨-, m, htags⟩
  · rw [hnil] at h
    cases h
  · rw [htags] at h ⊢
    simp only [List.mem_cons, List.not_mem_nil, or_false] at h
    rcases h with rfl | rfl | rfl
    · rfl
    · rfl
    · rfl

/-- None of them is the key of the visibility label. -/
theorem get_pathTags_visibility (src : Source) :
    BTree.get (pathTags src).reverse "_visibility".toList = none := by
  rcases pathTags_cases src with hnil | ⟨-, m, htags⟩
  · rw [hnil]
    rfl
  · rw [htags]
    rfl

/-- What the configuration and the path say is not overridden by the line. -/
theorem get_configured (fields : List (Text × Value)) :
    (∀ vis ∈ src.visibility, BTree.get (recordOf libs src parsed fields).tags
        "_visibility".toList = some vis) ∧
      ∀ tag ∈ pathTags src,
        BTree.get (recordOf libs src parsed fields).tags tag.1 = some tag.2 := by
  constructor
  · intro vis hvis
    rw [get_tags, get_pathTags_visibility, if_pos rfl, hvis]
    rfl
  · intro tag htag
    rw [get_tags, get_pathTags htag]
    rfl

/-! ## Fields -/

theorem mem_buildFields {fields : List (Text × FieldType)} {values : List (Text × Value)}
    (h : buildFields libs parsed fields = .ok values) {f : Text × Value} (hf : f ∈ values) :
    ∃ want raw, (f.1, want) ∈ fields ∧ BTree.get parsed f.1 = some raw
      ∧ coerce libs f.1 want raw = .ok f.2 := by
  induction fields generalizing values with
  | nil =>
      cases h
      cases hf
  | cons d fields ih =>
      obtain ⟨key, want⟩ := d
      rw [buildFields] at h
      cases hget : BTree.get parsed key with
      | none =>
          rw [hget] at h
          obtain ⟨w, raw, hmem, hraw⟩ := ih h hf
          exact ⟨w, raw, List.mem_cons_of_mem _ hmem, hraw⟩
      | some raw =>
          rw [hget] at h
          cases hv : coerce libs key want raw with
          | error e => simp [bind, Except.bind, hv] at h
          | ok v =>
              cases hmore : buildFields libs parsed fields with
              | error e => simp [bind, Except.bind, hv, hmore] at h
              | ok more =>
                  simp only [bind, Except.bind, hv, hmore, Except.ok.injEq] at h
                  subst h
                  rcases List.mem_cons.mp hf with rfl | hf
                  · exact ⟨want, raw, List.mem_cons_self .., hget, hv⟩
                  · obtain ⟨w, raw', hmem, hraw⟩ := ih hmore hf
                    exact ⟨w, raw', List.mem_cons_of_mem _ hmem, hraw⟩

/-- What a record says is what the map says of the listed keys. -/
structure Faithful (libs : Libs) (src : Source) (parsed : List (Text × Json)) (record : Record) :
    Prop where
  /-- the keys are distinct and ascend -/
  sorted : BTree.Sorted record.tags
  permitted : ∀ tag ∈ record.tags, Permitted src tag.1
  visibility : ∀ vis ∈ src.visibility, BTree.get record.tags "_visibility".toList = some vis
  path : ∀ tag ∈ pathTags src, BTree.get record.tags tag.1 = some tag.2
  /-- a listed key that nothing configured overrides has the value of the map -/
  listed : ∀ key ∈ src.tags, BTree.get (pathTags src) key = none →
    (key = "_visibility".toList → src.visibility = none) →
      ∀ raw, BTree.get parsed key = some raw → raw.text libs ≠ [] →
        BTree.get record.tags key = some (raw.text libs)
  fields : ∀ f ∈ record.fields, ∃ want raw, (f.1, want) ∈ src.fields
    ∧ BTree.get parsed f.1 = some raw ∧ coerce libs f.1 want raw = .ok f.2

theorem faithful (h : buildRecord libs src parsed ts = .ok (record, ts')) :
    Faithful libs src parsed record := by
  obtain ⟨fields, hfields, rfl, -⟩ := buildRecord_ok h
  refine
    { sorted := BTree.sorted_collect _
      permitted := fun tag htag => permitted_of_mem (BTree.mem_collect htag)
      visibility := (get_configured fields).1
      path := (get_configured fields).2
      listed := ?_
      fields := fun f hf => mem_buildFields hfields ((List.mem_insertionSort _).mp hf) }
  intro key hkey hpath hvis raw hraw hne
  have hpath' : BTree.get (pathTags src).reverse key = none := by
    unfold BTree.get at hpath ⊢
    rw [Option.map_eq_none_iff, List.find?_eq_none] at hpath ⊢
    exact fun e he => hpath e (List.mem_reverse.mp he)
  have hnovis : (if "_visibility".toList = key then src.visibility else none) = none := by
    split
    · rename_i heq
      exact hvis heq.symm
    · rfl
  have htag : listedTag libs src parsed key = some (raw.text libs) := by
    rw [listedTag, if_pos hkey, allowedTag, hraw, Option.bind_some, if_neg hne]
    rfl
  rw [get_tags, hpath', hnovis, htag]
  rfl

end Map

end Tributary
