import PropSchema.Config.Tsconfig
import PropSchema.Proofs.Text.Affix

namespace PropSchema.PathMapping

variable {before after pattern target specifier captured : String}

theorem exists_first_star (h : '*' ∈ pattern.toList) :
    ∃ before after, '*' ∉ before.toList ∧ pattern = before ++ "*" ++ after := by
  cases hcut : Text.cut? "*" pattern with
  | none => exact absurd h ((Text.cut?_eq_none_iff rfl).1 hcut)
  | some cut =>
    obtain ⟨hpattern, hbefore⟩ := (Text.cut?_eq_some_iff rfl).1 hcut
    exact ⟨cut.1, cut.2, hbefore, hpattern⟩

theorem cut?_first_star (h : '*' ∉ before.toList) :
    Text.cut? "*" (before ++ "*" ++ after) = some (before, after) :=
  (Text.cut?_eq_some_iff rfl).2 ⟨rfl, h⟩

theorem capture?_star_eq_some_iff (h : '*' ∉ before.toList) :
    capture? (before ++ "*" ++ after) specifier = some captured ↔
      specifier = before ++ captured ++ after := by
  rw [capture?, cut?_first_star h]
  simp only [Option.bind_eq_bind, Option.bind_eq_some_iff, Text.dropPrefix?_eq_some_iff,
    Text.dropSuffix?_eq_some_iff]
  constructor
  · rintro ⟨rest, rfl, rfl⟩
    exact String.append_assoc.symm
  · rintro rfl
    exact ⟨captured ++ after, String.append_assoc, rfl⟩

theorem isSome_capture?_star_iff (h : '*' ∉ before.toList) :
    (capture? (before ++ "*" ++ after) specifier).isSome ↔ Text.startsWith before specifier ∧
      Text.endsWith after specifier ∧ before.length + after.length ≤ specifier.length := by
  simp only [Option.isSome_iff_exists, capture?_star_eq_some_iff h,
    Text.exists_eq_append_append_iff]

theorem capture?_of_not_mem (h : '*' ∉ pattern.toList) :
    capture? pattern specifier = if pattern = specifier then some "" else none := by
  rw [capture?, (Text.cut?_eq_none_iff rfl).2 h]

inductive Captures : String → String → String → Prop
  | star {before captured after : String} : '*' ∉ before.toList →
    Captures (before ++ "*" ++ after) (before ++ captured ++ after) captured
  | plain {pattern : String} : '*' ∉ pattern.toList → Captures pattern pattern ""

theorem capture?_eq_some_iff :
    capture? pattern specifier = some captured ↔ Captures pattern specifier captured := by
  constructor
  · intro h
    by_cases hstar : '*' ∈ pattern.toList
    · obtain ⟨before, after, hbefore, rfl⟩ := exists_first_star hstar
      rw [(capture?_star_eq_some_iff hbefore).1 h]
      exact .star hbefore
    · rw [capture?_of_not_mem hstar] at h
      obtain ⟨rfl, rfl⟩ : pattern = specifier ∧ "" = captured := by simpa using h
      exact .plain hstar
  · intro h
    cases h with
    | star hbefore => exact (capture?_star_eq_some_iff hbefore).2 rfl
    | plain hpattern => rw [capture?_of_not_mem hpattern, if_pos rfl]

theorem substitute_star (h : '*' ∉ before.toList) (captured : String) :
    substitute (before ++ "*" ++ after) captured = before ++ captured ++ after := by
  rw [substitute, Text.replaceFirst, cut?_first_star h]

theorem substitute_of_not_mem (h : '*' ∉ target.toList) (captured : String) :
    substitute target captured = target := by
  rw [substitute, Text.replaceFirst, (Text.cut?_eq_none_iff rfl).2 h]

inductive Fills (captured : String) : String → String → Prop
  | star {before after : String} : '*' ∉ before.toList →
    Fills captured (before ++ "*" ++ after) (before ++ captured ++ after)
  | plain {target : String} : '*' ∉ target.toList → Fills captured target target

theorem fills_substitute (target captured : String) :
    Fills captured target (substitute target captured) := by
  by_cases hstar : '*' ∈ target.toList
  · obtain ⟨before, after, hbefore, rfl⟩ := exists_first_star hstar
    rw [substitute_star hbefore]
    exact .star hbefore
  · rw [substitute_of_not_mem hstar]
    exact .plain hstar

theorem substitute_of_capture? (h : capture? pattern specifier = some captured) :
    substitute pattern captured = specifier := by
  cases capture?_eq_some_iff.1 h with
  | star hbefore => exact substitute_star hbefore captured
  | plain hpattern => exact substitute_of_not_mem hpattern ""

theorem capture?_substitute (h : '*' ∈ target.toList) (captured : String) :
    capture? target (substitute target captured) = some captured := by
  obtain ⟨before, after, hbefore, rfl⟩ := exists_first_star h
  rw [substitute_star hbefore, capture?_star_eq_some_iff hbefore]

theorem apply_of_capture? (h : capture? pattern specifier = some captured) (targets : List String) :
    apply ⟨pattern, targets⟩ specifier = targets.map (substitute · captured) := by
  rw [apply, h]

/-- A pattern with a star stands for the specifiers that have something between what is before its
first star and what is after it. This part gives the specifier back in the place of the star. In the
place of the star of a target it is captured by the target again, so that a mapping from the target
to the pattern leads back to the specifier. -/
theorem wildcards_inverse (pattern specifier : String) :
    (∀ before after, '*' ∉ before.toList → pattern = before ++ "*" ++ after →
      (∀ captured, capture? pattern specifier = some captured ↔
        specifier = before ++ captured ++ after) ∧
      ((capture? pattern specifier).isSome ↔ Text.startsWith before specifier ∧
        Text.endsWith after specifier ∧ before.length + after.length ≤ specifier.length)) ∧
    ∀ captured, capture? pattern specifier = some captured →
      substitute pattern captured = specifier ∧
      (∀ targets, apply ⟨pattern, targets⟩ specifier = targets.map (substitute · captured)) ∧
      ∀ target, '*' ∈ target.toList →
        capture? target (substitute target captured) = some captured ∧
          apply ⟨target, [pattern]⟩ (substitute target captured) = [specifier] := by
  refine ⟨?_, fun captured h => ⟨substitute_of_capture? h, apply_of_capture? h, ?_⟩⟩
  · rintro before after hbefore rfl
    exact ⟨fun _ => capture?_star_eq_some_iff hbefore, isSome_capture?_star_iff hbefore⟩
  · intro target htarget
    have hagain := capture?_substitute htarget captured
    refine ⟨hagain, ?_⟩
    rw [apply_of_capture? hagain, List.map_singleton, substitute_of_capture? h]

theorem wildcards_inverse_stars :
    capture? "@/*.*" "@/a*b.*" = some "a*b" ∧ substitute "@/*.*" "a*b" = "@/a*b.*" ∧
      apply ⟨"@/*.*", ["lib/*/*", "lib"]⟩ "@/a*b.*" = ["lib/a*b/*", "lib"] ∧
      capture? "lib/*/*" "lib/a*b/*" = some "a*b" ∧
      apply ⟨"lib/*/*", ["@/*.*"]⟩ "lib/a*b/*" = ["@/a*b.*"] := by
  obtain ⟨hmatch, hback⟩ := wildcards_inverse "@/*.*" "@/a*b.*"
  have hcapture := ((hmatch "@/" ".*" (by decide) rfl).1 "a*b").2 rfl
  obtain ⟨hpattern, happly, htarget⟩ := hback "a*b" hcapture
  exact ⟨hcapture, hpattern, happly ["lib/*/*", "lib"], htarget "lib/*/*" (by decide)⟩

-- The beginning and the end of `aba` overlap.
example : capture? "ab*ba" "aba" = none ∧ capture? "ab*ba" "abba" = some "" := by
  decide

end PropSchema.PathMapping
