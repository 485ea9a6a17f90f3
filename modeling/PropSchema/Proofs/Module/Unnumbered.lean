import PropSchema.Proofs.Module.Resolution

namespace PropSchema

namespace Node

variable (n : Node) (space : Namespace) (name : String)

mutual

def unnumbered : Node → Node
  | ⟨_, kind, named, field, span, line, text, children⟩ =>
    ⟨0, kind, named, field, span, line, text, unnumberedAll children⟩

def unnumberedAll : List Node → List Node
  | [] => []
  | c :: rest => c.unnumbered :: unnumberedAll rest

end

theorem unnumberedAll_eq (l : List Node) : unnumberedAll l = l.map unnumbered := by
  induction l with
  | nil => rfl
  | cons c rest ih => rw [unnumberedAll, ih, List.map_cons]

@[simp] theorem kind_unnumbered : n.unnumbered.kind = n.kind := by cases n; rfl

@[simp] theorem named_unnumbered : n.unnumbered.named = n.named := by cases n; rfl

@[simp] theorem field_unnumbered : n.unnumbered.field = n.field := by cases n; rfl

@[simp] theorem span_unnumbered : n.unnumbered.span = n.span := by cases n; rfl

@[simp] theorem text_unnumbered : n.unnumbered.text = n.text := by cases n; rfl

@[simp] theorem children_unnumbered : n.unnumbered.children = n.children.map unnumbered := by
  cases n
  exact unnumberedAll_eq _

@[simp] theorem child?_unnumbered (f : Field) :
    n.unnumbered.child? f = (n.child? f).map unnumbered := by
  simp only [child?, children_unnumbered, List.find?_map, Function.comp_def, field_unnumbered]

@[simp] theorem isMeaningful_unnumbered : n.unnumbered.isMeaningful = n.isMeaningful := by
  simp [isMeaningful]

@[simp] theorem parts_unnumbered : n.unnumbered.parts = n.parts.map unnumbered := by
  simp [parts, List.filter_map, Function.comp_def]

@[simp] theorem hasMark_unnumbered (token : Kind) :
    n.unnumbered.hasMark token = n.hasMark token := by
  simp [hasMark, List.any_map, Function.comp_def]

@[simp] theorem unquotedText_unnumbered : n.unnumbered.unquotedText = n.unquotedText := by
  simp [unquotedText]

@[simp] theorem isNamed_unnumbered : n.unnumbered.isNamed name = n.isNamed name := by
  simp [isNamed, nameText?, Function.comp_def]

theorem declarationHere?_unnumbered : n.unnumbered.declarationHere? space name =
    (n.declarationHere? space name).map unnumbered := by
  simp only [declarationHere?_eq, kind_unnumbered, isNamed_unnumbered, parts_unnumbered,
    List.find?_map, Function.comp_def, apply_ite (Option.map unnumbered), Option.map_some,
    Option.map_none]

mutual

theorem declarationOf?_unnumbered : ∀ n : Node,
    n.unnumbered.declarationOf? space name = (n.declarationOf? space name).map unnumbered
  | ⟨id, kind, named, field, span, line, text, children⟩ => by
    by_cases h : kind = .ambientDeclaration
    · subst h
      rw [unnumbered, declarationOf?, declarationOf?]
      exact declarationAmong?_unnumbered children
    · rw [declarationOf?_of_ne_ambient (by simpa using h), declarationOf?_of_ne_ambient h,
        declarationHere?_unnumbered]

theorem declarationAmong?_unnumbered : ∀ l : List Node,
    declarationAmong? space name (unnumberedAll l) =
      (declarationAmong? space name l).map unnumbered
  | [] => rfl
  | c :: rest => by
    rw [unnumberedAll, declarationAmong?, declarationAmong?, isMeaningful_unnumbered,
      declarationOf?_unnumbered c, declarationAmong?_unnumbered rest]
    split
    · cases c.declarationOf? space name <;> rfl
    · rfl

end

end Node

open Node

def Declaration.unnumbered (d : Declaration) : Declaration := ⟨d.file, d.node.unnumbered⟩

def Target.unnumbered : Target → Target
  | .here node => .here node.unnumbered
  | .elsewhere query => .elsewhere query
  | .external => .external

theorem Target.map_unnumbered {target : Option Target} (h : ∀ n, target ≠ some (.here n)) :
    target.map Target.unnumbered = target := by
  cases target with
  | none => rfl
  | some target =>
    cases target with
    | here n => exact absurd rfl (h n)
    | elsewhere query => rfl
    | external => rfl

namespace Program

variable (P : Program) (space : Namespace) (file : FileId) (name : String) (n : Node)

def unnumbered : Program :=
  { P with modules := P.modules.map fun m => { m with tree := m.tree.unnumbered } }

theorem moduleAt_unnumbered :
    P.unnumbered.moduleAt file =
      { P.moduleAt file with tree := (P.moduleAt file).tree.unnumbered } := by
  by_cases h : file < P.modules.size
  · simp [moduleAt, unnumbered, Array.getD, h]
  · simp [moduleAt, unnumbered, Array.getD, h, Node.empty, Node.unnumbered, unnumberedAll]

@[simp] theorem statements_unnumbered :
    P.unnumbered.statements file = (P.statements file).map Node.unnumbered := by
  rw [statements, moduleAt_unnumbered]
  exact parts_unnumbered _

@[simp] theorem link?_unnumbered (specifier : String) :
    P.unnumbered.link? file specifier = P.link? file specifier := rfl

@[simp] theorem exportOrigin?_unnumbered :
    P.unnumbered.exportOrigin? file n.unnumbered = P.exportOrigin? file n := by
  simp [exportOrigin?, Function.comp_def]

@[simp] theorem specifierLocal?_unnumbered :
    specifierLocal? name n.unnumbered = specifierLocal? name n := by
  simp only [specifierLocal?, kind_unnumbered, child?_unnumbered]
  cases n.child? .name <;> cases n.child? .otherName <;> simp

@[simp] theorem clauseTarget?_unnumbered :
    P.unnumbered.clauseTarget? file n.unnumbered name = P.clauseTarget? file n name := by
  simp [clauseTarget?, List.find?_map, List.findSome?_map, Function.comp_def, Option.bind_map]

@[simp] theorem importedName?_unnumbered :
    importedName? name n.unnumbered = importedName? name n := by
  simp only [importedName?, kind_unnumbered, child?_unnumbered]
  cases n.child? .name <;> cases n.child? .otherName <;> simp

@[simp] theorem importTarget?_unnumbered :
    P.unnumbered.importTarget? file n.unnumbered name = P.importTarget? file n name := by
  simp [importTarget?, List.find?_map, List.findSome?_map, Function.comp_def, Option.bind_map]

theorem declaration_unnumbered :
    (n.unnumbered.child? .declaration).bind (declarationOf? space name) =
      ((n.child? .declaration).bind (declarationOf? space name)).map Node.unnumbered := by
  simp only [child?_unnumbered, Option.bind_map, Option.map_bind, Function.comp_def,
    declarationOf?_unnumbered]

theorem nameTarget?_unnumbered :
    P.unnumbered.nameTarget? space file name n.unnumbered =
      (P.nameTarget? space file name n).map Target.unnumbered := by
  simp only [nameTarget?, kind_unnumbered]
  split
  · simp [declaration_unnumbered, -child?_unnumbered, Function.comp_def, Target.unnumbered]
  · rw [importTarget?_unnumbered, Target.map_unnumbered fun _ => importTarget?_ne_here]
  · simp [declarationOf?_unnumbered, Function.comp_def, Target.unnumbered]

theorem defaultTarget?_unnumbered :
    P.unnumbered.defaultTarget? file n.unnumbered =
      (P.defaultTarget? file n).map Target.unnumbered := by
  simp only [defaultTarget?, kind_unnumbered, hasMark_unnumbered, child?_unnumbered]
  split
  · rfl
  split
  · cases n.child? .declaration <;> cases n.child? .value <;> rfl
  · rw [clauseTarget?_unnumbered, Target.map_unnumbered fun _ => clauseTarget?_ne_here]

theorem exportTarget?_unnumbered :
    P.unnumbered.exportTarget? space file name n.unnumbered =
      (P.exportTarget? space file name n).map Target.unnumbered := by
  simp only [exportTarget?, kind_unnumbered, declaration_unnumbered, clauseTarget?_unnumbered]
  split
  · rfl
  · cases (n.child? .declaration).bind (declarationOf? space name) with
    | some node => rfl
    | none => exact (Target.map_unnumbered fun _ => clauseTarget?_ne_here).symm

theorem starOrigin?_unnumbered :
    P.unnumbered.starOrigin? file n.unnumbered = P.starOrigin? file n := by
  simp [starOrigin?]

theorem findSome?_unnumbered {f g : Node → Option Target}
    (h : ∀ n : Node, g n.unnumbered = (f n).map Target.unnumbered) :
    (P.unnumbered.statements file).findSome? g =
      ((P.statements file).findSome? f).map Target.unnumbered := by
  simp only [statements_unnumbered, List.findSome?_map, List.map_findSome?, Function.comp_def, h]

section Answer

variable {next next' : Query → Option Declaration}
  (hnext : ∀ q, next' q = (next q).map Declaration.unnumbered)

include hnext

theorem follow_unnumbered (target : Option Target) :
    target.map Target.unnumbered >>= follow next' file =
      (target >>= follow next file).map Declaration.unnumbered := by
  cases target with
  | none => rfl
  | some target =>
    cases target with
    | here node => rfl
    | elsewhere query => exact hnext query
    | external => rfl

theorem unnamedExport_unnumbered :
    P.unnumbered.unnamedExport space next' file name =
      (P.unnamedExport space next file name).map Declaration.unnumbered := by
  simp only [unnamedExport, statements_unnumbered, List.findSome?_map, Function.comp_def,
    starOrigin?_unnumbered, declarationOf?_unnumbered, hnext, Option.map_or, List.map_findSome?,
    Option.map_bind, Option.map_map, Declaration.unnumbered]

theorem answer_unnumbered (query : Query) :
    P.unnumbered.answer space next' query =
      (P.answer space next query).map Declaration.unnumbered := by
  cases query with
  | name file name =>
    rw [answer, P.findSome?_unnumbered file (P.nameTarget?_unnumbered space file name)]
    exact follow_unnumbered file hnext _
  | defaultExport file =>
    rw [answer, P.findSome?_unnumbered file (P.defaultTarget?_unnumbered file)]
    exact follow_unnumbered file hnext _
  | exported file exported =>
    rw [answer, answer,
      P.findSome?_unnumbered file (P.exportTarget?_unnumbered space file exported)]
    split
    · exact hnext _
    · cases (P.statements file).findSome? (P.exportTarget? space file exported) with
      | some target => exact follow_unnumbered file hnext (some target)
      | none => exact P.unnamedExport_unnumbered space file exported hnext

end Answer

theorem answerAt_unnumbered (limit : Nat) (query : Query) :
    P.unnumbered.answerAt space limit query =
      (P.answerAt space limit query).map Declaration.unnumbered := by
  induction limit generalizing query with
  | zero => rfl
  | succ limit ih => exact P.answer_unnumbered space ih query

end Program

end PropSchema
