import PropSchema.Proofs.Path.Normal

namespace PropSchema

namespace Path

open NormalPath (follow climb)

theorem segments_append (a b : List Char) :
    segments (a ++ '/' :: b) = segments a ++ segments b := by
  induction a with
  | nil =>
    rw [List.nil_append, segments_cons, if_pos rfl]
    rfl
  | cons c a ih =>
    obtain ⟨first, rest, hfirst⟩ := List.exists_cons_of_ne_nil (segments_ne_nil a)
    rw [List.cons_append, segments_cons, ih, segments_cons, hfirst]
    split <;> rfl

theorem foldl_follow_components (p : Path) (q : NormalPath) :
    p.components.foldl follow q = ((segments p.text.toList).filterMap component?).foldl follow
      (if p.isAbsolute then climb true 0 else q) := by
  have habsolute := p.isAbsolute_iff
  rw [components]
  revert habsolute
  generalize p.text.toList = chars
  fun_cases splitLead chars with
  | case1 body =>
    intro habsolute
    rw [if_pos (habsolute.2 rfl), segments_cons, if_pos rfl, List.filterMap_cons_none rfl]
    rfl
  | case2 =>
    intro habsolute
    rw [if_neg (habsolute.not.2 (by simp))]
    rfl
  | case3 body =>
    intro habsolute
    have hsegments : segments ('.' :: '/' :: body) = ['.'] :: segments body := by
      rw [segments_cons, segments_cons, if_neg (by decide), if_pos rfl]
      rfl
    change (Component.current :: (segments ('/' :: body)).filterMap component?).foldl follow q = _
    rw [if_neg (habsolute.not.2 (by simp)), hsegments, segments_cons, if_pos rfl,
      List.filterMap_cons_none rfl, List.filterMap_cons_none rfl]
    rfl
  | case4 =>
    intro habsolute
    rw [if_neg (habsolute.not.2 (by simp))]
    rfl

theorem place_eq (p : Path) : p.place =
    ((segments p.text.toList).filterMap component?).foldl follow (climb p.isAbsolute 0) := by
  rw [place, foldl_follow_components]
  cases p.isAbsolute <;> rfl

theorem isAbsolute_append {a : String} (h : a ≠ "") (b : String) :
    isAbsolute ⟨a ++ b⟩ = isAbsolute ⟨a⟩ := by
  have hne : a.toList ≠ [] := by simpa using h
  rw [Bool.eq_iff_iff, isAbsolute_iff_head?, isAbsolute_iff_head?, String.toList_append,
    List.head?_append_of_ne_nil _ hne]

theorem place_slash {a : String} (h : a ≠ "") : place ⟨a ++ "/"⟩ = place ⟨a⟩ := by
  have hchars : (a ++ "/").toList = a.toList ++ ['/'] := by simp
  have hempty : (segments []).filterMap component? = [] := rfl
  rw [place_eq, place_eq, isAbsolute_append h, hchars, segments_append, List.filterMap_append,
    hempty, List.append_nil]

theorem place_slash_append (a b : String) :
    place ⟨a ++ "/" ++ b⟩ =
      ((segments b.toList).filterMap component?).foldl follow (place ⟨a ++ "/"⟩) := by
  have hne : a ++ "/" ≠ "" := by simp
  have hchars : (a ++ "/" ++ b).toList = a.toList ++ '/' :: b.toList := by simp
  have hslash : (a ++ "/").toList = a.toList ++ '/' :: [] := by simp
  have hempty : (segments []).filterMap component? = [] := rfl
  rw [place_eq, place_eq, isAbsolute_append hne, hchars, hslash, segments_append, segments_append,
    List.filterMap_append, List.filterMap_append, hempty, List.append_nil, List.foldl_append]

theorem place_join (p q : Path) : (p.join q.text).place = q.components.foldl follow p.place := by
  have hq := foldl_follow_components q
  rw [join]
  cases habsolute : Text.startsWith "/" q.text with
  | true =>
    have hroot : q.isAbsolute = true := habsolute
    simp only [hroot, if_true] at hq
    exact (hq _).trans (hq _).symm
  | false =>
    have hrelative : q.isAbsolute = false := habsolute
    rw [hrelative] at hq
    rw [Bool.false_or, hq]
    by_cases hempty : p.text = ""
    · have hp : p = ⟨""⟩ := congrArg Path.mk hempty
      rw [hp]
      exact hq _
    · rw [if_neg (by simpa using hempty)]
      split
      · next hend =>
        obtain ⟨a, ha⟩ := Text.endsWith_iff.1 hend
        have hp : p = ⟨a ++ "/"⟩ := congrArg Path.mk ha
        rw [hp]
        exact place_slash_append a q.text
      · rw [place_slash_append, place_slash hempty]
        rfl

theorem place_normalize (p : Path) : p.normalize.place = p.place := by
  rw [p.normalize_eq, NormalPath.place_path]

theorem normalize_eq_iff {p q : Path} : p.normalize = q.normalize ↔ p.place = q.place := by
  rw [p.normalize_eq, q.normalize_eq]
  exact ⟨NormalPath.path_injective, congrArg NormalPath.path⟩

theorem normalize_join (p q : Path) :
    (p.join q.text).normalize = (p.normalize.join q.text).normalize := by
  rw [normalize_eq_iff, place_join, place_join, place_normalize]

theorem components_normalize (p : Path) : p.normalize.components = p.place.components := by
  rw [p.normalize_eq, NormalPath.components_path]

end Path

namespace NormalPath

theorem current_not_mem_components (q : NormalPath) : Component.current ∉ q.components := by
  cases h : q.absolute <;> simp [components, body, lead, h]

theorem pairwise_components (q : NormalPath) :
    q.components.Pairwise fun c d => d = .parent → ∀ name, c ≠ .normal name := by
  have hnames : ∀ c ∈ q.names.map (Component.normal ·.text), c ≠ .parent := by simp
  have hlead : ∀ c ∈ lead q.absolute ++ List.replicate q.parents .parent,
      ∀ name, c ≠ .normal name := by
    cases q.absolute <;> simp [lead]
  rw [components, body, ← List.append_assoc, List.pairwise_append]
  refine ⟨List.pairwise_of_forall_mem_list fun c hc _ _ _ => hlead c hc,
    List.pairwise_of_forall_mem_list fun _ _ d hd hparent => absurd hparent (hnames d hd),
    fun c hc _ _ _ => hlead c hc⟩

end NormalPath

/-- Normalization is canonical: of the paths that lead to one place it chooses one, without dots and
with all parents before the names. It may be done before a path is joined or only afterwards. -/
theorem Path.normalize_canonical (p q : Path) :
    (.current ∉ p.normalize.components ∧
      p.normalize.components.Pairwise fun c d => d = .parent → ∀ name, c ≠ .normal name) ∧
    p.normalize.normalize = p.normalize ∧
    (p.join q.text).normalize = (p.normalize.join q.text).normalize ∧
    (p.normalize = q.normalize ↔ p.place = q.place) := by
  refine ⟨?_, p.isNormal_normalize, p.normalize_join q, normalize_eq_iff⟩
  rw [components_normalize]
  exact ⟨p.place.current_not_mem_components, p.place.pairwise_components⟩

example : Path.normalize (.join ⟨"a/./../.."⟩ "./b//../c/") = ⟨"../c"⟩ := by decide +kernel

end PropSchema
