import Mathlib.Data.List.TakeWhile
import Tributary.K8s

/-!
# The grammar of container log names

A name is cut at the first two underscores and at the last hyphen, and it is cut in one
way only: the three names have no underscore, the id has no hyphen.
-/

namespace Tributary.K8s

/-! ## Cutting a text -/

variable {c d : Char} {s t a b : Text} {p : Char → Bool}

theorem stripSuffix_eq_some_iff : stripSuffix s t = some a ↔ s = a ++ t := by
  unfold stripSuffix
  constructor
  · intro h
    split at h
    · rename_i hsuffix
      obtain ⟨r, rfl⟩ := List.isSuffixOf_iff_suffix.mp hsuffix
      rw [List.length_append, Nat.add_sub_cancel, List.take_left', Option.some.injEq] at h
      · rw [h]
      · rfl
    · cases h
  · rintro rfl
    rw [if_pos (List.isSuffixOf_iff_suffix.mpr (List.suffix_append a t)), List.length_append,
      Nat.add_sub_cancel, List.take_left' rfl]

theorem splitOnce_append (h : c ∉ a) : splitOnce c (a ++ c :: b) = some (a, b) := by
  have hall : ∀ x ∈ a, (x != c) = true := fun x hx => bne_iff_ne.mpr fun he => h (he ▸ hx)
  unfold splitOnce
  rw [List.dropWhile_append_of_pos hall, List.takeWhile_append_of_pos hall]
  simp

theorem splitOnce_eq_some_iff : splitOnce c s = some (a, b) ↔ s = a ++ c :: b ∧ c ∉ a := by
  constructor
  · intro h
    have hcut := List.takeWhile_append_dropWhile (p := fun x => x != c) (l := s)
    unfold splitOnce at h
    split at h
    · cases h
    · rename_i x rest hdrop
      simp only [Option.some.injEq, Prod.mk.injEq] at h
      obtain ⟨rfl, rfl⟩ := h
      have hx : x = c := by
        have hhead := List.head?_dropWhile_not (fun x => x != c) s
        rw [hdrop] at hhead
        simpa using hhead
      subst hx
      refine ⟨by rw [← hdrop, hcut], fun hmem => ?_⟩
      simpa using List.mem_takeWhile_imp hmem
  · rintro ⟨rfl, h⟩
    exact splitOnce_append h

theorem rsplitOnce_eq_some_iff : rsplitOnce c s = some (a, b) ↔ s = a ++ c :: b ∧ c ∉ b := by
  rw [rsplitOnce, Option.map_eq_some_iff]
  constructor
  · rintro ⟨⟨x, y⟩, hsplit, h⟩
    obtain ⟨hs, hx⟩ := splitOnce_eq_some_iff.mp hsplit
    simp only [Prod.mk.injEq] at h
    obtain ⟨rfl, rfl⟩ := h
    rw [← List.reverse_reverse s, hs]
    simpa using hx
  · rintro ⟨rfl, h⟩
    exact ⟨(b.reverse, a.reverse), splitOnce_eq_some_iff.mpr (by simpa using h), by simp⟩

theorem not_mem_afterLast (h : p c = true) : c ∉ afterLast p s := by
  intro hmem
  have htrue := List.mem_takeWhile_imp (List.mem_reverse.mp hmem)
  rw [h] at htrue
  cases htrue

theorem afterLast_append (h : p c = true) (ht : ∀ x ∈ t, p x = false) :
    afterLast p (s ++ c :: t) = t := by
  have hall : ∀ x ∈ t.reverse, (!p x) = true := fun x hx => by
    rw [ht x (List.mem_reverse.mp hx)]
    rfl
  rw [afterLast, List.reverse_append, List.reverse_cons, List.append_assoc,
    List.takeWhile_append_of_pos hall]
  simp [h]

theorem afterLast_self (ht : ∀ x ∈ t, p x = false) : afterLast p t = t := by
  have hall : ∀ x ∈ t.reverse, (!p x) = true := fun x hx => by
    rw [ht x (List.mem_reverse.mp hx)]
    rfl
  rw [afterLast, List.takeWhile_eq_self_iff.mpr hall, List.reverse_reverse]

/-! ## Names -/

def isSeparator (c : Char) : Bool := c = '/' || c = '\\'

/-- `path.rsplit(['/', '\\']).next()`. -/
def lastSegment (path : Text) : Text := afterLast isSeparator path

/-- A part of a file name that stands between two cuts: not empty, without an underscore,
and within one segment of a path. -/
structure IsName (t : Text) : Prop where
  nonempty : t ≠ []
  whole : '_' ∉ t
  segment : ∀ c ∈ t, isSeparator c = false

/-- The four parts of a CRI file name. -/
structure CriName extends CriMeta where
  id : Text
  pod_name : IsName pod
  namespace_name : IsName namespace_
  container_name : IsName container
  width : id.length = 64
  hex : ∀ c ∈ id, isHexDigit c = true

/-- `<pod>_<namespace>_<container>-<container-id>.log`. -/
def CriName.file (n : CriName) : Text :=
  n.pod ++ '_' :: (n.namespace_ ++ '_' :: (n.container ++ '-' :: n.id)) ++ ['.', 'l', 'o', 'g']

variable {n n' : CriName} {m m' : CriMeta} {path path' : Text}

theorem CriName.looksLikeContainerId (n : CriName) : looksLikeContainerId n.id = true := by
  rw [K8s.looksLikeContainerId, Bool.and_eq_true, decide_eq_true_iff, List.all_eq_true]
  exact ⟨n.width, n.hex⟩

/-- What is not a hex digit is in no id. -/
theorem CriName.not_mem_id (n : CriName) (hc : isHexDigit c = false) : c ∉ n.id := by
  intro hmem
  rw [n.hex c hmem] at hc
  cases hc

/-- A separator is not a hex digit. -/
theorem isSeparator_of_hex (h : isHexDigit c = true) : isSeparator c = false := by
  by_contra hsep
  have hcases : c = '/' ∨ c = '\\' := by
    simpa [isSeparator, or_iff_not_imp_left] using hsep
  rcases hcases with rfl | rfl
  · exact absurd h (by decide)
  · exact absurd h (by decide)

/-- A name in one segment stays in it. -/
theorem CriName.file_segment (n : CriName) : ∀ c ∈ n.file, isSeparator c = false := by
  intro c hc
  have hparts : c ∈ n.pod ∨ c ∈ n.namespace_ ∨ c ∈ n.container ∨ c ∈ n.id
      ∨ c ∈ ['_', '-', '.', 'l', 'o', 'g'] := by
    simp only [CriName.file, List.mem_append, List.mem_cons] at hc
    simp only [List.mem_cons]
    tauto
  rcases hparts with h | h | h | h | h
  · exact n.pod_name.segment c h
  · exact n.namespace_name.segment c h
  · exact n.container_name.segment c h
  · exact isSeparator_of_hex (n.hex c h)
  · simp only [List.mem_cons, List.not_mem_nil, or_false] at h
    rcases h with rfl | rfl | rfl | rfl | rfl | rfl <;> rfl

/-! ## Parsing -/

/-- **A path is accepted** when its last segment is a CRI file name, whatever its
directories are. -/
theorem parseCriPath_eq_some_iff :
    parseCriPath path = some m ↔ ∃ n : CriName, n.toCriMeta = m ∧ lastSegment path = n.file := by
  have hfile : afterLast (fun c => c = '/' || c = '\\') path = lastSegment path := rfl
  constructor
  · intro h
    unfold parseCriPath at h
    rw [hfile] at h
    simp only [Option.bind_eq_bind, Option.bind_eq_some_iff, Prod.exists] at h
    obtain ⟨stem, hstem, pod, rest, hpod, ns, tail, hns, h⟩ := h
    rw [stripSuffix_eq_some_iff] at hstem
    obtain ⟨hrest, hpodWhole⟩ := splitOnce_eq_some_iff.mp hpod
    obtain ⟨htail, hnsWhole⟩ := splitOnce_eq_some_iff.mp hns
    split at h
    · cases h
    · rename_i hnames
      obtain ⟨hpodNe, hnsNe, htailWhole⟩ : pod ≠ [] ∧ ns ≠ [] ∧ '_' ∉ tail := by
        simpa [not_or] using hnames
      simp only [Option.bind_eq_some_iff, Prod.exists] at h
      obtain ⟨container, id, hid, h⟩ := h
      obtain ⟨hcontainer, -⟩ := rsplitOnce_eq_some_iff.mp hid
      split at h
      · cases h
      · rename_i hlast
        simp only [not_or, Bool.not_eq_true', Bool.not_eq_false] at hlast
        obtain ⟨hcontainerNe, hlooks⟩ := hlast
        rw [looksLikeContainerId, Bool.and_eq_true, decide_eq_true_iff,
          List.all_eq_true] at hlooks
        have hseg : ∀ c ∈ lastSegment path, isSeparator c = false := by
          intro c hc
          by_contra hsep
          exact not_mem_afterLast (Bool.not_eq_false _ ▸ hsep) hc
        rw [hstem, hrest, htail, hcontainer] at hseg
        have hwhole : '_' ∉ container := fun hmem => htailWhole (by simp [hcontainer, hmem])
        let n : CriName :=
          { pod, namespace_ := ns, container, id
            pod_name := ⟨hpodNe, hpodWhole, fun c hc => hseg c (by simp [hc])⟩
            namespace_name := ⟨hnsNe, hnsWhole, fun c hc => hseg c (by simp [hc])⟩
            container_name := ⟨hcontainerNe, hwhole, fun c hc => hseg c (by simp [hc])⟩
            width := hlooks.1
            hex := hlooks.2 }
        refine ⟨n, Option.some.inj h, ?_⟩
        rw [hstem, hrest, htail, hcontainer]
        rfl
  · rintro ⟨n, rfl, hn⟩
    have hidHyphen : '-' ∉ n.id := n.not_mem_id (by decide)
    have hidUnderscore : '_' ∉ n.id := n.not_mem_id (by decide)
    have htail : '_' ∉ n.container ++ '-' :: n.id := by
      simp [n.container_name.whole, hidUnderscore]
    unfold parseCriPath
    rw [hfile, hn]
    simp only [Option.bind_eq_bind, stripSuffix_eq_some_iff.mpr (show n.file = _ ++ _ from rfl),
      Option.bind_some, splitOnce_append n.pod_name.whole, splitOnce_append n.namespace_name.whole,
      rsplitOnce_eq_some_iff.mpr ⟨rfl, hidHyphen⟩, n.looksLikeContainerId]
    rw [if_neg (by simp [n.pod_name.nonempty, n.namespace_name.nonempty, htail]),
      if_neg (by simp [n.container_name.nonempty])]

/-- A name is read back from any directory. -/
theorem lastSegment_file (n : CriName) : lastSegment n.file = n.file :=
  afterLast_self n.file_segment

theorem lastSegment_join (n : CriName) (dir : Text) (hc : isSeparator c = true) :
    lastSegment (dir ++ c :: n.file) = n.file :=
  afterLast_append hc n.file_segment

/-! ## Labels -/

def CriMeta.label (m : CriMeta) : Text := m.pod ++ '_' :: m.namespace_ ++ '_' :: m.container

/-- The label of names without underscores is read in one way. -/
theorem label_inj (h : n.label = n'.label) : n.toCriMeta = n'.toCriMeta := by
  have hcut (n : CriName) : splitOnce '_' n.label
      = some (n.pod, n.namespace_ ++ '_' :: n.container) := by
    rw [CriMeta.label, List.append_assoc, List.cons_append]
    exact splitOnce_append n.pod_name.whole
  have hpod := (hcut n).symm.trans ((congrArg (splitOnce '_') h).trans (hcut n'))
  simp only [Option.some.injEq, Prod.mk.injEq] at hpod
  have hrest := (splitOnce_append n.namespace_name.whole).symm.trans
    ((congrArg (splitOnce '_') hpod.2).trans (splitOnce_append n'.namespace_name.whole))
  simp only [Option.some.injEq, Prod.mk.injEq] at hrest
  cases hn : n.toCriMeta
  cases hn' : n'.toCriMeta
  simp_all

theorem streamLabel_eq (h : parseCriPath path = some m) : streamLabel path = some m.label := by
  rw [streamLabel, h]
  rfl

/-- **`parse_cri_path` accepts the CRI file names and no others**: it returns the parts of
the name; a formatted name is read back from every directory; and the labels of two
accepted paths are equal when the three names are. -/
theorem parseCriPath_grammar :
    (∀ path m, parseCriPath path = some m
      ↔ ∃ n : CriName, n.toCriMeta = m ∧ lastSegment path = n.file) ∧
    (∀ n : CriName, parseCriPath n.file = some n.toCriMeta ∧
      ∀ dir, parseCriPath (dir ++ '/' :: n.file) = some n.toCriMeta
        ∧ parseCriPath (dir ++ '\\' :: n.file) = some n.toCriMeta) ∧
    ∀ path path' m m', parseCriPath path = some m → parseCriPath path' = some m' →
      (streamLabel path = streamLabel path' ↔ m = m') := by
  refine ⟨fun path m => parseCriPath_eq_some_iff, fun n => ⟨?_, fun dir => ⟨?_, ?_⟩⟩, ?_⟩
  · exact parseCriPath_eq_some_iff.mpr ⟨n, rfl, lastSegment_file n⟩
  · exact parseCriPath_eq_some_iff.mpr ⟨n, rfl, lastSegment_join n dir rfl⟩
  · exact parseCriPath_eq_some_iff.mpr ⟨n, rfl, lastSegment_join n dir rfl⟩
  · intro path path' m m' h h'
    rw [streamLabel_eq h, streamLabel_eq h', Option.some.injEq]
    obtain ⟨n, rfl, -⟩ := parseCriPath_eq_some_iff.mp h
    obtain ⟨n', rfl, -⟩ := parseCriPath_eq_some_iff.mp h'
    exact ⟨label_inj, fun heq => congrArg CriMeta.label heq⟩

/-- A path of the container `server` with this digit repeated as its id. -/
def serverLog (digit : Char) : Text :=
  "/var/log/containers/web-7d9_shop_server-".toList ++ List.replicate 64 digit ++ ".log".toList

/-- A restart changes the id and not the label. -/
theorem streamLabel_restarted : streamLabel (serverLog 'a') = streamLabel (serverLog '7') :=
  (parseCriPath_grammar.2.2 (serverLog 'a') (serverLog '7')
    { pod := "web-7d9".toList, namespace_ := "shop".toList, container := "server".toList }
    { pod := "web-7d9".toList, namespace_ := "shop".toList, container := "server".toList }
    (by decide) (by decide)).mpr rfl

end Tributary.K8s
