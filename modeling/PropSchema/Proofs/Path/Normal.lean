import Mathlib.Data.List.Induction
import PropSchema.Path.Basic
import PropSchema.Proofs.Text.Affix

/-!
Paths in normal form. Such a path is fixed by whether it is absolute, by the number of parents that
it starts with and by the names that follow them. Normalization ends in a path in normal form and
changes no path that has it already; adding a name or a suffix to a normal path gives another one.
-/

namespace PropSchema

/-- A component other than a leading one, in a text that can be read back. -/
def Component.IsWritten (c : Component) : Prop :=
  Path.component? c.text.toList = some c ∧ '/' ∉ c.text.toList

theorem not_mem_of_mem_splitOn {α : Type} [DecidableEq α] {sep : α} {xs part : List α}
    (h : part ∈ xs.splitOn sep) : sep ∉ part := by
  induction xs generalizing part with
  | nil =>
    rw [List.splitOn_nil] at h
    simp_all
  | cons x xs ih =>
    rw [List.splitOn_cons_eq_if_modifyHead] at h
    split at h
    · cases h with
      | head => exact List.not_mem_nil
      | tail _ h => exact ih h
    · next hx =>
      cases hs : xs.splitOn sep with
      | nil => exact absurd hs (List.splitOn_ne_nil _ _)
      | cons first rest =>
        rw [hs] at h ih
        cases h with
        | head => simpa [Ne.symm (mt beq_iff_eq.2 hx)] using ih List.mem_cons_self
        | tail _ h => exact ih (List.mem_cons_of_mem _ h)

theorem Component.not_isWritten_root : ¬ Component.root.IsWritten := fun h =>
  absurd h.2 (by decide)

namespace Path

theorem segments_cons (c : Char) (chars : List Char) :
    segments (c :: chars) =
      if c = '/' then [] :: segments chars else (segments chars).modifyHead (c :: ·) := by
  simp only [segments, List.splitOn, List.splitOnP_cons_eq_if_modifyHead, beq_iff_eq]

theorem segments_ne_nil (chars : List Char) : segments chars ≠ [] := List.splitOn_ne_nil _ _

theorem not_mem_of_mem_segments {chars s : List Char} (h : s ∈ segments chars) : '/' ∉ s :=
  not_mem_of_mem_splitOn h

theorem text_of_component? {s : List Char} {c : Component} (h : component? s = some c) :
    c.text.toList = s := by
  fun_cases component? s <;> simp_all [component?, Component.text]
  · subst h; rfl
  · subst h; simp

theorem isWritten_of_mem {chars : List Char} {c : Component}
    (h : c ∈ (segments chars).filterMap component?) : c.IsWritten := by
  obtain ⟨s, hs, hc⟩ := List.mem_filterMap.1 h
  have htext := text_of_component? hc
  exact ⟨htext ▸ hc, htext ▸ not_mem_of_mem_segments hs⟩

theorem segments_intercalate {cs : List Component} (h : ∀ c ∈ cs, c.IsWritten) (hne : cs ≠ []) :
    segments ("/".intercalate (cs.map Component.text)).toList = cs.map (·.text.toList) := by
  rw [String.toList_intercalate, List.map_map]
  refine List.splitOn_intercalate '/' ?_ (by simpa using hne)
  simp only [List.forall_mem_map]
  exact fun c hc => (h c hc).2

theorem filterMap_segments {cs : List Component} (h : ∀ c ∈ cs, c.IsWritten) :
    (segments ("/".intercalate (cs.map Component.text)).toList).filterMap component? = cs := by
  by_cases hne : cs = []
  · subst hne
    rfl
  · have hread : ∀ c ∈ cs, component? c.text.toList = some c := fun c hc => (h c hc).1
    rw [segments_intercalate h hne, List.filterMap_map]
    calc cs.filterMap (component? ∘ fun c => c.text.toList)
      _ = cs.filterMap some := List.filterMap_congr hread
      _ = cs := List.filterMap_some

theorem splitLead_of_segments {chars first : List Char} {rest : List (List Char)}
    (hs : segments chars = first :: rest) (h : component? first ≠ none) :
    splitLead chars = (none, chars) := by
  fun_cases splitLead chars with
  | case1 body =>
    rw [segments_cons, if_pos rfl, List.cons.injEq] at hs
    exact absurd (hs.1 ▸ rfl) h
  | case2 =>
    have hdot : segments ['.'] = [['.']] := rfl
    rw [hdot, List.cons.injEq] at hs
    exact absurd (hs.1 ▸ rfl) h
  | case3 body =>
    rw [segments_cons, segments_cons, if_neg (by decide), if_pos rfl, List.modifyHead_cons,
      List.cons.injEq] at hs
    exact absurd (hs.1 ▸ rfl) h
  | case4 => rfl

theorem splitLead_texts {cs : List Component} (h : ∀ c ∈ cs, c.IsWritten) :
    splitLead ("/".intercalate (cs.map Component.text)).toList =
      (none, ("/".intercalate (cs.map Component.text)).toList) := by
  cases cs with
  | nil => rfl
  | cons c cs =>
    have hc := (h c List.mem_cons_self).1
    exact splitLead_of_segments (segments_intercalate h (List.cons_ne_nil _ _)) (by simp [hc])

theorem ofComponents_of_head? {cs : List Component} (h : cs.head? ≠ some .root) :
    ofComponents cs = ⟨"/".intercalate (cs.map Component.text)⟩ := by
  fun_cases ofComponents cs with
  | case1 rest => exact absurd rfl h
  | case2 => rfl

theorem components_ofComponents {cs : List Component} (h : ∀ c ∈ cs, c.IsWritten) :
    (ofComponents cs).components = cs := by
  have hlead : cs.head? ≠ some .root := fun hroot =>
    Component.not_isWritten_root (h .root (List.mem_of_mem_head? hroot))
  rw [ofComponents_of_head? hlead, components, splitLead_texts h]
  exact filterMap_segments h

theorem components_ofComponents_root {cs : List Component} (h : ∀ c ∈ cs, c.IsWritten) :
    (ofComponents (.root :: cs)).components = .root :: cs := by
  have hlead : splitLead ("/" ++ "/".intercalate (cs.map Component.text)).toList =
      (some .root, ("/".intercalate (cs.map Component.text)).toList) := by
    rw [String.toList_append]
    rfl
  rw [ofComponents, components, hlead]
  exact congrArg (Component.root :: ·) (filterMap_segments h)

theorem components_eq (p : Path) :
    ∃ cs : List Component, (∀ c ∈ cs, c.IsWritten) ∧
      p.components = (splitLead p.text.toList).1.toList ++ cs :=
  ⟨_, fun _ => isWritten_of_mem, rfl⟩

theorem isAbsolute_iff_head? {p : Path} :
    p.isAbsolute = true ↔ p.text.toList.head? = some '/' := by
  rw [isAbsolute, Text.startsWith_iff, List.head?_eq_some_iff]
  constructor
  · rintro ⟨rest, h⟩
    exact ⟨rest.toList, by rw [h, String.toList_append]; rfl⟩
  · rintro ⟨body, h⟩
    exact ⟨String.ofList body, String.ext (by rw [h, String.toList_append]; simp)⟩

theorem isAbsolute_iff {p : Path} :
    p.isAbsolute = true ↔ (splitLead p.text.toList).1 = some .root := by
  rw [isAbsolute_iff_head?]
  fun_cases splitLead p.text.toList <;> simp_all [List.head?_eq_some_iff]

theorem isAbsolute_iff_mem {p : Path} : p.isAbsolute = true ↔ .root ∈ p.components := by
  obtain ⟨cs, hcs, hp⟩ := p.components_eq
  have hroot : .root ∉ cs := fun h => Component.not_isWritten_root (hcs .root h)
  rw [isAbsolute_iff, hp, List.mem_append, or_iff_left hroot, Option.mem_toList]

theorem trimSegments_texts {cs : List Component} (h : ∀ c ∈ cs, c.IsWritten) :
    trimSegments (cs.map (·.text.toList)) = cs.map (·.text.toList) := by
  cases List.eq_nil_or_concat cs with
  | inl hnil => rw [hnil]; rfl
  | inr hconcat =>
    obtain ⟨cs, c, rfl⟩ := hconcat
    have hc : component? c.text.toList = some c := (h c (by simp)).1
    simp [trimSegments, hc]

theorem parent?_of_segments {p : Path} {lead : Option Component} {body : List Char}
    {cs : List Component} {c : Component} (hlead : splitLead p.text.toList = (lead, body))
    (hbody : segments body = (cs ++ [c]).map (·.text.toList))
    (h : ∀ d ∈ cs ++ [c], d.IsWritten) :
    p.parent? =
      some ⟨(lead.map Component.text).getD "" ++ "/".intercalate (cs.map Component.text)⟩ := by
  have hcs : ∀ d ∈ cs, d.IsWritten := fun d hd => h d (List.mem_append_left _ hd)
  have htrim : trimSegments (segments body) = cs.map (·.text.toList) ++ [c.text.toList] := by
    rw [hbody, trimSegments_texts h, List.map_append, List.map_singleton]
  have htext : String.ofList (['/'].intercalate (cs.map (·.text.toList))) =
      "/".intercalate (cs.map Component.text) := by
    rw [← String.toList_inj, String.toList_intercalate, String.toList_ofList, List.map_map]
    rfl
  simp only [parent?, hlead, htrim]
  split
  · next hnil => exact absurd hnil (by simp)
  · rw [List.dropLast_concat, trimSegments_texts hcs, htext]

end Path

structure NormalPath where
  absolute : Bool
  parents : Nat
  names : List FileName

namespace NormalPath

def lead (absolute : Bool) : List Component := if absolute then [.root] else []

def body (q : NormalPath) : List Component :=
  List.replicate q.parents .parent ++ q.names.map (.normal ·.text)

def components (q : NormalPath) : List Component := lead q.absolute ++ q.body

def path (q : NormalPath) : Path := .ofComponents q.components

variable {q q' : NormalPath}

theorem isWritten_of_mem_body {c : Component} (h : c ∈ q.body) : c.IsWritten := by
  rw [body, List.mem_append, List.mem_map] at h
  obtain h | ⟨name, -, rfl⟩ := h
  · rw [List.eq_of_mem_replicate h]
    exact ⟨rfl, by decide⟩
  · exact name.isName

theorem components_path (q : NormalPath) : q.path.components = q.components := by
  have hbody : ∀ c ∈ q.body, c.IsWritten := fun c => isWritten_of_mem_body
  rw [path, components]
  cases q.absolute with
  | false => exact Path.components_ofComponents hbody
  | true => exact Path.components_ofComponents_root hbody

theorem path_of_relative (h : q.absolute = false) :
    q.path = ⟨"/".intercalate (q.body.map Component.text)⟩ := by
  have hroot : q.body.head? ≠ some .root := fun hhead =>
    Component.not_isWritten_root (isWritten_of_mem_body (List.mem_of_mem_head? hhead))
  rw [path, components, h]
  exact Path.ofComponents_of_head? hroot

theorem path_of_absolute (h : q.absolute = true) :
    q.path = ⟨"/" ++ "/".intercalate (q.body.map Component.text)⟩ := by
  rw [path, components, h]
  rfl

theorem filterMap_segments_path (q : NormalPath) :
    (Path.segments q.path.text.toList).filterMap Path.component? = q.body := by
  have hread := Path.filterMap_segments fun c hc => isWritten_of_mem_body (q := q) hc
  cases habsolute : q.absolute with
  | false => rw [path_of_relative habsolute, hread]
  | true =>
    rw [path_of_absolute habsolute, String.toList_append]
    change (Path.segments ('/' :: _)).filterMap _ = _
    rw [Path.segments_cons, if_pos rfl, List.filterMap_cons_none rfl]
    exact hread

def push (q : NormalPath) (name : FileName) : NormalPath := { q with names := q.names ++ [name] }

@[simp] theorem components_push (q : NormalPath) (name : FileName) :
    (q.push name).components = q.components ++ [.normal name.text] := by
  simp [push, components, body]

theorem body_push (q : NormalPath) (name : FileName) :
    (q.push name).body = q.body ++ [.normal name.text] := by
  simp [push, body]

def climb (absolute : Bool) (parents : Nat) : NormalPath := ⟨absolute, parents, []⟩

theorem components_climb (absolute : Bool) (parents : Nat) :
    (climb absolute parents).components = lead absolute ++ List.replicate parents .parent := by
  simp [climb, components, body]

theorem eq_climb_or_push (q : NormalPath) :
    q = climb q.absolute q.parents ∨ ∃ q' name, q = push q' name := by
  obtain ⟨absolute, parents, names⟩ := q
  cases List.eq_nil_or_concat names with
  | inl hnil => exact .inl (hnil ▸ rfl)
  | inr hconcat =>
    obtain ⟨names, name, rfl⟩ := hconcat
    exact .inr ⟨⟨absolute, parents, names⟩, name, by simp [push]⟩

theorem root_mem_components : Component.root ∈ q.components ↔ q.absolute = true := by
  cases h : q.absolute <;> simp [components, body, lead, h]

theorem isAbsolute_path (q : NormalPath) : q.path.isAbsolute = q.absolute := by
  rw [Bool.eq_iff_iff, Path.isAbsolute_iff_mem, components_path, root_mem_components]

theorem count_parent_components : q.components.count .parent = q.parents := by
  have hnames : (q.names.map (Component.normal ·.text)).count .parent = 0 := by
    simp [List.count_eq_zero]
  cases h : q.absolute <;> simp [components, body, lead, h, hnames]

theorem filterMap_names (names : List FileName) :
    (names.map (Component.normal ·.text)).filterMap Component.fileName? = names := by
  have hname : ∀ name ∈ names,
      (Component.fileName? ∘ fun name : FileName => .normal name.text) name = some name :=
    fun name _ => name.ofText?_text
  rw [List.filterMap_map, List.filterMap_congr hname, List.filterMap_some]

theorem names_path (q : NormalPath) : q.path.names = q.names := by
  have hlead : (lead q.absolute).filterMap Component.fileName? = [] := by
    cases q.absolute <;> rfl
  have hparents : (List.replicate q.parents Component.parent).filterMap Component.fileName? = [] :=
    List.filterMap_replicate_of_none rfl
  rw [Path.names, components_path, components, body, List.filterMap_append, List.filterMap_append,
    hlead, hparents, filterMap_names, List.nil_append, List.nil_append]

theorem components_injective (h : q.components = q'.components) : q = q' := by
  have habsolute : q.absolute = q'.absolute := by
    rw [Bool.eq_iff_iff, ← root_mem_components, h, root_mem_components]
  have hparents : q.parents = q'.parents := by
    rw [← count_parent_components, h, count_parent_components]
  have hnames : q.names = q'.names := by
    rw [← names_path, ← names_path, path, path, h]
  cases q
  cases q'
  simp_all

theorem path_injective (h : q.path = q'.path) : q = q' := by
  apply components_injective
  rw [← components_path, h, components_path]

end NormalPath

namespace Path

theorem intercalate_concat {texts : List String} (h : texts ≠ []) (last : String) :
    "/".intercalate (texts ++ [last]) = "/".intercalate texts ++ "/" ++ last := by
  induction texts with
  | nil => exact absurd rfl h
  | cons first texts ih =>
    cases texts with
    | nil => simp [String.intercalate_cons_cons]
    | cons second texts =>
      rw [List.cons_append, String.intercalate_cons_of_ne_nil (by simp), ih (List.cons_ne_nil _ _),
        String.intercalate_cons_cons, String.append_assoc, String.append_assoc, String.append_assoc,
        String.append_assoc, String.append_assoc]

def slashed : List Component → String
  | [] => ""
  | [.root] => "/"
  | cs => (ofComponents cs).text ++ "/"

theorem text_ofComponents_concat {c : Component} (hc : c ≠ .root) (cs : List Component) :
    (ofComponents (cs ++ [c])).text = slashed cs ++ c.text := by
  fun_cases slashed cs with
  | case1 =>
    rw [List.nil_append, ofComponents_of_head? (by simpa using hc)]
    simp
  | case2 => simp [ofComponents]
  | case3 cs hnil hroot =>
    have hne : cs.map Component.text ≠ [] := by simpa using hnil
    by_cases hlead : cs.head? = some .root
    · obtain ⟨cs, rfl⟩ := List.head?_eq_some_iff.1 hlead
      have hne : cs.map Component.text ≠ [] := by
        intro h
        exact hroot (by rw [List.map_eq_nil_iff.1 h])
      simp only [List.cons_append, ofComponents, List.map_append, List.map_singleton,
        intercalate_concat hne, String.append_assoc]
    · have hlead' : (cs ++ [c]).head? ≠ some .root := by
        cases cs with
        | nil => exact absurd rfl hnil
        | cons first cs => exact hlead
      rw [ofComponents_of_head? hlead, ofComponents_of_head? hlead', List.map_append,
        List.map_singleton, intercalate_concat hne]

theorem getLast?_slashed (cs : List Component) :
    (slashed cs).toList = [] ∨ (slashed cs).toList.getLast? = some '/' := by
  fun_cases slashed cs with
  | case1 => exact .inl rfl
  | case2 => exact .inr rfl
  | case3 cs => exact .inr (by rw [String.toList_append]; exact List.getLast?_concat)

end Path

namespace NormalPath

theorem text_push (q : NormalPath) (name : FileName) :
    (q.push name).path.text = Path.slashed q.components ++ name.text := by
  rw [path, components_push, Path.text_ofComponents_concat (by simp)]
  rfl

theorem text_climb_succ (absolute : Bool) (parents : Nat) :
    (climb absolute (parents + 1)).path.text =
      Path.slashed (climb absolute parents).components ++ ".." := by
  rw [path, components_climb, List.replicate_succ', ← List.append_assoc, ← components_climb,
    Path.text_ofComponents_concat (by simp)]
  rfl

theorem exists_text_eq (q : NormalPath) :
    ∃ (q' : NormalPath) (last : String), '/' ∉ last.toList ∧
      q.path.text = Path.slashed q'.components ++ last ∧ (last = "" → q = climb q.absolute 0) := by
  obtain hclimb | ⟨q', name, rfl⟩ := q.eq_climb_or_push
  · rw [hclimb]
    cases q.parents with
    | zero =>
      refine ⟨climb q.absolute 0, "", by simp, ?_, fun _ => rfl⟩
      cases q.absolute <;> rfl
    | succ parents =>
      exact ⟨climb q.absolute parents, "..", by decide, text_climb_succ _ _, by simp⟩
  · refine ⟨q', name.text, name.isName.2, q'.text_push name, fun hempty => ?_⟩
    have hname := name.isName.1
    rw [hempty] at hname
    cases hname

theorem getLast?_text {q : NormalPath} (h : q ≠ climb q.absolute 0) :
    ∃ c, q.path.text.toList.getLast? = some c ∧ c ≠ '/' := by
  obtain ⟨q', last, hlast, htext, hempty⟩ := q.exists_text_eq
  have hne : last.toList ≠ [] := fun hnil => h (hempty (String.toList_eq_nil_iff.1 hnil))
  refine ⟨last.toList.getLast hne, ?_, ?_⟩
  · rw [htext, String.toList_append, List.getLast?_append_of_ne_nil _ hne,
      List.getLast?_eq_some_getLast hne]
  · intro hslash
    exact hlast (hslash ▸ List.getLast_mem hne)

theorem slashed_components {q : NormalPath} (h : q ≠ climb q.absolute 0) :
    Path.slashed q.components = q.path.text ++ "/" := by
  have hne : ∀ absolute, q.components ≠ (climb absolute 0).components := by
    intro absolute hcomponents
    have hq := components_injective hcomponents
    exact h (hq.trans (by rw [hq]; rfl))
  rw [Path.slashed, path]
  · exact fun hnil => hne false hnil
  · exact fun hroot => hne true hroot

theorem utf8ByteSize_text_le (q : NormalPath) :
    q.path.text.utf8ByteSize ≤ (Path.slashed q.components).utf8ByteSize := by
  by_cases hq : q = climb q.absolute 0
  · rw [hq]
    cases q.absolute <;> decide
  · rw [slashed_components hq, String.utf8ByteSize_append]
    exact Nat.le_add_right _ _

theorem parents_le_utf8ByteSize (q : NormalPath) : q.parents ≤ q.path.text.utf8ByteSize := by
  obtain ⟨absolute, parents, names⟩ := q
  induction names using List.reverseRecOn with
  | nil =>
    induction parents with
    | zero => exact Nat.zero_le _
    | succ parents ih =>
      have hle := utf8ByteSize_text_le (climb absolute parents)
      have htext := congrArg String.utf8ByteSize (text_climb_succ absolute parents)
      have hsize : "..".utf8ByteSize = 2 := rfl
      rw [String.utf8ByteSize_append, hsize] at htext
      simp only [climb] at hle htext ih ⊢
      omega
  | append_singleton names name ih =>
    have hle := utf8ByteSize_text_le ⟨absolute, parents, names⟩
    have htext := congrArg String.utf8ByteSize (text_push ⟨absolute, parents, names⟩ name)
    rw [String.utf8ByteSize_append] at htext
    simp only [push] at hle htext ih ⊢
    omega

theorem text_join (q : NormalPath) {last : String} (hslash : '/' ∉ last.toList) :
    (q.path.join last).text = Path.slashed q.components ++ last := by
  have hstart : Text.startsWith "/" last = false := by
    rw [Bool.eq_false_iff, Ne, Text.startsWith_iff]
    rintro ⟨rest, h⟩
    exact hslash (by simp [h])
  rw [Path.join, hstart, Bool.false_or]
  by_cases hq : q = climb q.absolute 0
  · rw [hq]
    cases q.absolute with
    | false =>
      rw [if_pos (by decide)]
      exact String.empty_append.symm
    | true =>
      rw [if_neg (by decide), if_pos (by decide)]
      rfl
  · obtain ⟨c, hlast, hc⟩ := getLast?_text hq
    have hempty : q.path.text ≠ "" := by
      intro h
      simp [h] at hlast
    have hend : Text.endsWith "/" q.path.text = false := by
      rw [Bool.eq_false_iff, Ne, Text.endsWith_iff]
      rintro ⟨rest, h⟩
      rw [h, String.toList_append] at hlast
      exact hc (Option.some.inj (hlast.symm.trans List.getLast?_concat))
    rw [if_neg (by simpa using hempty), hend, slashed_components hq]
    rfl

theorem join_path (q : NormalPath) (name : FileName) :
    q.path.join name.text = (q.push name).path :=
  congrArg Path.mk ((q.text_join name.isName.2).trans (q.text_push name).symm)

theorem join_parent (absolute : Bool) (parents : Nat) :
    (climb absolute parents).path.join ".." = (climb absolute (parents + 1)).path :=
  congrArg Path.mk ((text_join _ (by decide)).trans (text_climb_succ absolute parents).symm)

theorem parent?_push (q : NormalPath) (name : FileName) :
    (q.push name).path.parent? = some q.path := by
  have hwritten : ∀ c ∈ q.body ++ [.normal name.text], c.IsWritten := fun c hc =>
    isWritten_of_mem_body (q := q.push name) (by rwa [body_push])
  have hsegments := Path.segments_intercalate hwritten (by simp)
  cases habsolute : q.absolute with
  | false =>
    have hpath := path_of_relative (q := q.push name) habsolute
    have hlead : Path.splitLead (q.push name).path.text.toList =
        (none, ("/".intercalate ((q.push name).body.map Component.text)).toList) := by
      rw [hpath]
      exact Path.splitLead_texts fun c => isWritten_of_mem_body
    rw [body_push] at hlead
    rw [Path.parent?_of_segments hlead hsegments hwritten, path_of_relative habsolute]
    exact congrArg (fun text => some (Path.mk text)) String.empty_append
  | true =>
    have hpath := path_of_absolute (q := q.push name) habsolute
    have hlead : Path.splitLead (q.push name).path.text.toList =
        (some .root, ("/".intercalate ((q.push name).body.map Component.text)).toList) := by
      rw [hpath, String.toList_append]
      rfl
    rw [body_push] at hlead
    rw [Path.parent?_of_segments hlead hsegments hwritten, path_of_absolute habsolute]
    rfl

theorem fileName?_push (q : NormalPath) (name : FileName) :
    (q.push name).path.fileName? = some name.text := by
  rw [Path.fileName?, components_path, components_push, List.getLast?_concat]

theorem fileName?_climb (absolute : Bool) (parents : Nat) :
    (climb absolute parents).path.fileName? = none := by
  rw [Path.fileName?, components_path, components_climb]
  cases parents with
  | zero => cases absolute <;> rfl
  | succ parents => simp [List.replicate_succ']

def follow (q : NormalPath) : Component → NormalPath
  | .root => climb true 0
  | .current => q
  | .parent =>
    if q.names = [] then { q with parents := q.parents + 1 }
    else { q with names := q.names.dropLast }
  | .normal name => (FileName.ofText? name).elim q q.push

@[simp] theorem follow_name (q : NormalPath) (name : FileName) :
    q.follow (.normal name.text) = q.push name := by
  simp [follow]

@[simp] theorem follow_parent_climb (absolute : Bool) (parents : Nat) :
    (climb absolute parents).follow .parent = climb absolute (parents + 1) := by
  simp [follow, climb]

@[simp] theorem follow_parent_push (q : NormalPath) (name : FileName) :
    (q.push name).follow .parent = q := by
  simp [follow, push]

theorem absolute_follow (q : NormalPath) (c : Component) :
    (q.follow c).absolute = (q.absolute || c == .root) := by
  cases c with
  | root => simp [follow, climb]
  | current => simp [follow]
  | parent => by_cases hnames : q.names = [] <;> simp [follow, hnames]
  | normal name => cases hname : FileName.ofText? name <;> simp [follow, hname, push]

theorem normalStep_path (q : NormalPath) {c : Component}
    (hc : c = .root ∨ c = .current ∨ c.IsWritten) :
    Path.normalStep q.path c = (q.follow c).path := by
  cases c with
  | root => rfl
  | current => rfl
  | parent =>
    rw [Path.normalStep]
    obtain hclimb | ⟨q', name, rfl⟩ := q.eq_climb_or_push
    · rw [hclimb, fileName?_climb, follow_parent_climb, ← join_parent]
      rfl
    · rw [fileName?_push, follow_parent_push, Path.pop, parent?_push]
      rfl
  | normal name =>
    obtain hroot | hcurrent | hname := hc
    · cases hroot
    · cases hcurrent
    · exact (q.join_path ⟨name, hname⟩).trans (congrArg path (q.follow_name ⟨name, hname⟩).symm)

theorem foldl_normalStep (q : NormalPath) {cs : List Component}
    (h : ∀ c ∈ cs, c = .root ∨ c = .current ∨ c.IsWritten) :
    cs.foldl Path.normalStep q.path = (cs.foldl follow q).path := by
  induction cs generalizing q with
  | nil => rfl
  | cons c cs ih =>
    obtain ⟨hc, hcs⟩ := List.forall_mem_cons.1 h
    rw [List.foldl_cons, q.normalStep_path hc, ih (q.follow c) hcs, List.foldl_cons]

theorem foldl_follow_parents (absolute : Bool) (parents more : Nat) :
    (List.replicate more Component.parent).foldl follow (climb absolute parents) =
      climb absolute (parents + more) := by
  induction more generalizing parents with
  | zero => rfl
  | succ more ih =>
    rw [List.replicate_succ, List.foldl_cons, follow_parent_climb, ih, Nat.add_right_comm]
    rfl

theorem foldl_follow_names (q : NormalPath) (names : List FileName) :
    (names.map (Component.normal ·.text)).foldl follow q =
      { q with names := q.names ++ names } := by
  induction names generalizing q with
  | nil => simp
  | cons name names ih => simp [ih, push]

theorem absolute_foldl_follow (q : NormalPath) (cs : List Component) :
    (cs.foldl follow q).absolute = true ↔ q.absolute = true ∨ .root ∈ cs := by
  induction cs generalizing q with
  | nil => simp
  | cons c cs ih => rw [List.foldl_cons, ih, absolute_follow, Bool.or_eq_true, beq_iff_eq, or_assoc,
    List.mem_cons, eq_comm (a := c)]

end NormalPath

namespace Path

def place (p : Path) : NormalPath := p.components.foldl NormalPath.follow (.climb false 0)

theorem mem_components_cases {p : Path} {c : Component} (h : c ∈ p.components) :
    c = .root ∨ c = .current ∨ c.IsWritten := by
  rw [components, List.mem_append, Option.mem_toList] at h
  obtain hlead | hbody := h
  · revert hlead
    fun_cases splitLead p.text.toList <;> simp_all
  · exact .inr (.inr (isWritten_of_mem hbody))

theorem normalize_eq (p : Path) : p.normalize = p.place.path :=
  NormalPath.foldl_normalStep (.climb false 0) fun _ => mem_components_cases

theorem absolute_place (p : Path) : p.place.absolute = p.isAbsolute := by
  rw [Bool.eq_iff_iff, place, NormalPath.absolute_foldl_follow, isAbsolute_iff_mem]
  exact or_iff_right Bool.false_ne_true

end Path

theorem NormalPath.place_path (q : NormalPath) : q.path.place = q := by
  have hlead : (lead q.absolute).foldl follow (climb false 0) = climb q.absolute 0 := by
    cases q.absolute <;> rfl
  rw [Path.place, components_path, components, body, List.foldl_append, List.foldl_append, hlead,
    foldl_follow_parents, foldl_follow_names, Nat.zero_add]
  rfl

namespace Path

def IsNormal (p : Path) : Prop := p.normalize = p

instance (p : Path) : Decidable p.IsNormal := inferInstanceAs (Decidable (_ = _))

end Path

theorem NormalPath.normalize_path (q : NormalPath) : q.path.IsNormal := by
  rw [Path.IsNormal, Path.normalize_eq, place_path]

theorem Path.isNormal_normalize (p : Path) : p.normalize.IsNormal := by
  rw [p.normalize_eq]
  exact p.place.normalize_path

theorem Path.IsNormal.exists_path {p : Path} (h : p.IsNormal) :
    ∃ q : NormalPath, q.absolute = p.isAbsolute ∧ q.path = p :=
  ⟨p.place, p.absolute_place, p.normalize_eq.symm.trans h⟩

theorem Path.isName_of_length {text : String} (h : 3 ≤ text.toList.length) (hslash : '/' ∉ text.toList) :
    Path.IsName text := by
  refine ⟨?_, hslash⟩
  have htext : String.ofList text.toList = text := String.ofList_toList
  generalize text.toList = chars at h htext
  fun_cases Path.component? chars <;> simp_all

theorem Path.exists_eq_slashed_append {cs : List Component} {stem suffix last : String}
    (h : stem ++ suffix = Path.slashed cs ++ last) (hsuffix : '/' ∉ suffix.toList)
    (hlast : '/' ∉ last.toList) :
    ∃ start : String, '/' ∉ start.toList ∧ stem = Path.slashed cs ++ start := by
  have hchars := congrArg String.toList h
  rw [String.toList_append, String.toList_append, List.append_eq_append_iff] at hchars
  obtain ⟨extra, hdir, hextra⟩ | ⟨extra, hstem, hextra⟩ := hchars
  · have hnil : extra = [] := by
      obtain hempty | hend := Path.getLast?_slashed cs
      · exact (List.append_eq_nil_iff.1 (hdir.symm.trans hempty)).2
      · by_contra hne
        rw [hdir, List.getLast?_append_of_ne_nil _ hne] at hend
        exact hsuffix (hextra ▸ List.mem_append_left _ (List.mem_of_getLast? hend))
    refine ⟨"", by simp, String.ext ?_⟩
    simp [hdir, hnil]
  · refine ⟨String.ofList extra, ?_, String.ext ?_⟩
    · rw [String.toList_ofList]
      exact fun h => hlast (hextra ▸ List.mem_append_left _ h)
    · rw [hstem, String.toList_append, String.toList_ofList]

theorem Path.isNormal_of_suffix {stem suffix suffix' : String} (h : Path.IsNormal ⟨stem ++ suffix⟩)
    (hsuffix : '/' ∉ suffix.toList) (hslash : '/' ∉ suffix'.toList)
    (hlength : 3 ≤ suffix'.toList.length) : Path.IsNormal ⟨stem ++ suffix'⟩ := by
  obtain ⟨q, -, hq⟩ := h.exists_path
  obtain ⟨q', last, hlast, htext, -⟩ := q.exists_text_eq
  obtain ⟨start, hstart, hstem⟩ : ∃ start : String, '/' ∉ start.toList ∧
      stem = Path.slashed q'.components ++ start := by
    apply Path.exists_eq_slashed_append _ hsuffix hlast
    rw [← htext, hq]
  have hname : Path.IsName (start ++ suffix') := by
    apply Path.isName_of_length <;> simp_all
    omega
  have hpush := q'.text_push ⟨start ++ suffix', hname⟩
  rw [← String.append_assoc, ← hstem] at hpush
  rw [← hpush]
  exact (q'.push ⟨start ++ suffix', hname⟩).normalize_path

end PropSchema
