import PropSchema.Proofs.Binding.Run
import PropSchema.Proofs.Tree.Lines

namespace PropSchema

open Node

def Node.isTypeDeclaration (n : Node) : Bool :=
  n.kind == .interfaceDeclaration || n.kind == .typeAliasDeclaration || n.kind == .enumDeclaration

theorem Node.isTypeDeclaration_of_declares {n : Node} (h : n.kind.declares? = some .type) :
    n.isTypeDeclaration ∧ n.kind.isList = false := by
  unfold isTypeDeclaration
  revert h
  cases n.kind <;> simp [Kind.declares?, Kind.isList]

theorem Node.isTypeDeclaration_declarationHere? {n m : Node} {name : String}
    (h : n.declarationHere? .type name = some m) : m.isTypeDeclaration ∧ m.isNamed name := by
  rw [declarationHere?_eq] at h
  split at h
  · next hkind =>
    obtain ⟨htype, hlist⟩ := isTypeDeclaration_of_declares hkind
    rw [hlist, if_neg Bool.false_ne_true] at h
    split at h
    · next hnamed =>
      cases h
      exact ⟨htype, hnamed⟩
    · cases h
  · cases h

mutual

theorem Node.exists_declarationHere? {space : Namespace} {name : String} {m : Node} :
    ∀ {n : Node}, n.declarationOf? space name = some m →
      ∃ k : Node, k.declarationHere? space name = some m
  | ⟨id, kind, named, field, span, line, text, children⟩, h => by
    unfold declarationOf? at h
    split at h
    · next heq =>
      cases heq
      exact exists_declarationHere?_among h
    · exact ⟨_, h⟩

theorem Node.exists_declarationHere?_among {space : Namespace} {name : String} {m : Node} :
    ∀ {children : List Node}, declarationAmong? space name children = some m →
      ∃ k : Node, k.declarationHere? space name = some m
  | c :: rest, h => by
    rw [declarationAmong?] at h
    split at h
    · cases hc : declarationOf? space name c with
      | some found =>
        rw [hc] at h
        cases h
        exact exists_declarationHere? hc
      | none =>
        rw [hc] at h
        exact exists_declarationHere?_among h
    · exact exists_declarationHere?_among h

end

theorem Node.isTypeDeclaration_declarationOf? {n m : Node} {name : String}
    (h : n.declarationOf? .type name = some m) : m.isTypeDeclaration ∧ m.isNamed name := by
  obtain ⟨k, hk⟩ := exists_declarationHere? h
  exact isTypeDeclaration_declarationHere? hk

def Query.file : Query → FileId
  | .name file _ | .exported file _ | .defaultExport file => file

def Query.name? : Query → Option String
  | .name _ asked | .exported _ asked => some asked
  | .defaultExport _ => none

namespace Program

variable (P : Program) (space : Namespace)

def stated? : Query → Option Target
  | .name file name => (P.statements file).findSome? (P.nameTarget? space file name)
  | .defaultExport file => (P.statements file).findSome? (P.defaultTarget? file)
  | .exported file exported =>
    if exported == "default" then some (.elsewhere (.defaultExport file))
    else (P.statements file).findSome? (P.exportTarget? space file exported)

def starModule? (limit : Nat) (file : FileId) (exported : String) : Option FileId :=
  (P.statements file).findSome? fun s =>
    (P.starOrigin? file s).filter fun m => (P.answerAt space limit (.exported m exported)).isSome

def onward? (limit : Nat) (query : Query) : Option Query :=
  match P.stated? space query, query with
  | some (.elsewhere next), _ => some next
  | none, .exported file exported =>
    (P.starModule? space limit file exported).map (.exported · exported)
  | _, _ => none

def ownAnswer? (query : Query) : Option Declaration :=
  match P.stated? space query, query with
  | some (.here node), _ => some ⟨query.file, node⟩
  | none, .exported file exported =>
    ((P.statements file).findSome? (declarationOf? space exported)).map (⟨file, ·⟩)
  | _, _ => none

def lastAt : Nat → Query → Option Query
  | 0, _ => none
  | limit + 1, query =>
    match P.onward? space limit query with
    | some next => lastAt limit next
    | none => some query

def lastQuestion? (file : FileId) (name : String) : Option Query :=
  P.lastAt space questionLimit (.name file name)

def defaultNode? (file : FileId) : Option Node :=
  match (P.statements file).findSome? (P.defaultTarget? file) with
  | some (.here node) => some node
  | _ => none

variable {P space}

theorem findSome?_star {l : List Node} {origin : Node → Option FileId}
    {answer : FileId → Option Declaration} :
    l.findSome? (fun s => (origin s).bind answer) =
      (l.findSome? fun s => (origin s).filter fun m => (answer m).isSome).bind answer := by
  induction l with
  | nil => rfl
  | cons s l ih =>
    rw [List.findSome?_cons, List.findSome?_cons, ih]
    cases origin s with
    | none => rfl
    | some m => cases h : answer m <;> simp [Option.filter, h]

theorem isSome_of_starModule? {limit : Nat} {file m : FileId} {exported : String}
    (h : P.starModule? space limit file exported = some m) :
    (P.answerAt space limit (.exported m exported)).isSome := by
  obtain ⟨s, -, hs⟩ := List.exists_of_findSome?_eq_some h
  exact (Option.filter_eq_some_iff.1 hs).2

theorem answer_eq (limit : Nat) (query : Query) :
    P.answer space (P.answerAt space limit) query =
      (P.onward? space limit query).elim (P.ownAnswer? space query) (P.answerAt space limit) := by
  unfold onward? ownAnswer?
  cases query with
  | name file name =>
    change (P.stated? space (.name file name) >>= follow _ file) = _
    cases P.stated? space (.name file name) with
    | none => rfl
    | some target => cases target <;> rfl
  | defaultExport file =>
    change (P.stated? space (.defaultExport file) >>= follow _ file) = _
    cases P.stated? space (.defaultExport file) with
    | none => rfl
    | some target => cases target <;> rfl
  | exported file exported =>
    rw [answer, stated?]
    split
    · rfl
    cases (P.statements file).findSome? (P.exportTarget? space file exported) with
    | some target => cases target <;> rfl
    | none =>
      simp only [unnamedExport, findSome?_star]
      change ((P.starModule? space limit file exported).bind _).or _ = _
      cases hstar : P.starModule? space limit file exported with
      | none => rfl
      | some m => exact Option.or_of_isSome (isSome_of_starModule? hstar)

theorem answerAt_eq (limit : Nat) (query : Query) :
    P.answerAt space limit query = (P.lastAt space limit query).bind (P.ownAnswer? space) := by
  induction limit generalizing query with
  | zero => rfl
  | succ limit ih =>
    rw [answerAt, lastAt, answer_eq]
    cases P.onward? space limit query with
    | none => rfl
    | some next => exact ih next

theorem isTypeDeclaration_declaration {statement n : Node} {name : String}
    (h : (statement.child? .declaration).bind (declarationOf? .type name) = some n) :
    n.isTypeDeclaration ∧ n.isNamed name := by
  obtain ⟨declaration, -, hn⟩ := Option.bind_eq_some_iff.1 h
  exact isTypeDeclaration_declarationOf? hn

theorem isTypeDeclaration_nameTarget? {file : FileId} {statement n : Node} {name : String}
    (h : P.nameTarget? .type file name statement = some (.here n)) :
    n.isTypeDeclaration ∧ n.isNamed name := by
  rw [nameTarget?] at h
  split at h
  · obtain ⟨m, hm, heq⟩ := Option.map_eq_some_iff.1 h
    cases heq
    exact isTypeDeclaration_declaration hm
  · exact absurd h importTarget?_ne_here
  · obtain ⟨m, hm, heq⟩ := Option.map_eq_some_iff.1 h
    cases heq
    exact isTypeDeclaration_declarationOf? hm

theorem isTypeDeclaration_exportTarget? {file : FileId} {statement n : Node} {exported : String}
    (h : P.exportTarget? .type file exported statement = some (.here n)) :
    n.isTypeDeclaration ∧ n.isNamed exported := by
  rw [exportTarget?] at h
  split at h
  · cases h
  split at h
  · next m hm =>
    cases h
    exact isTypeDeclaration_declaration hm
  · exact absurd h clauseTarget?_ne_here

theorem isTypeDeclaration_stated? {query : Query} {n : Node} {name : String}
    (hquery : query.name? = some name) (h : P.stated? .type query = some (.here n)) :
    n.isTypeDeclaration ∧ n.isNamed name := by
  cases query with
  | name file asked =>
    cases hquery
    obtain ⟨s, -, hs⟩ := List.exists_of_findSome?_eq_some h
    exact isTypeDeclaration_nameTarget? hs
  | exported file asked =>
    cases hquery
    rw [stated?] at h
    split at h
    · cases h
    · obtain ⟨s, -, hs⟩ := List.exists_of_findSome?_eq_some h
      exact isTypeDeclaration_exportTarget? hs
  | defaultExport file => cases hquery

theorem isTypeDeclaration_ownAnswer? {query : Query} {d : Declaration} {name : String}
    (hquery : query.name? = some name) (h : P.ownAnswer? .type query = some d) :
    d.node.isTypeDeclaration ∧ d.node.isNamed name := by
  unfold ownAnswer? at h
  split at h
  · next hstated =>
    cases h
    exact isTypeDeclaration_stated? hquery hstated
  · next file exported _ =>
    obtain ⟨n, hn, heq⟩ := Option.map_eq_some_iff.1 h
    cases heq
    cases hquery
    obtain ⟨s, -, hs⟩ := List.exists_of_findSome?_eq_some hn
    exact isTypeDeclaration_declarationOf? hs
  · cases h

theorem ownAnswer?_defaultExport (file : FileId) :
    P.ownAnswer? space (.defaultExport file) = (P.defaultNode? file).map (⟨file, ·⟩) := by
  simp only [ownAnswer?, defaultNode?, stated?]
  cases (P.statements file).findSome? (P.defaultTarget? file) with
  | none => rfl
  | some target => cases target <;> rfl

theorem resolve?_eq (file : FileId) (name : String) :
    P.resolve? space file name =
      (P.lastQuestion? space file name).bind (P.ownAnswer? space) :=
  answerAt_eq questionLimit (.name file name)

/-- A name of a type leads to a type declaration, of the name that is asked for last, unless the
search ends at the default export of a module: then it does only if a type declaration is marked as
the default there. -/
theorem type_name_iff {file : FileId} {name : String} {d : Declaration}
    (h : P.resolve? .type file name = some d) :
    (d.node.isTypeDeclaration ↔
      (P.lastQuestion? .type file name = some (.defaultExport d.file) →
        ∃ n, P.defaultNode? d.file = some n ∧ n.isTypeDeclaration)) ∧
    (∀ asked, (P.lastQuestion? .type file name).bind Query.name? = some asked →
      d.node.isNamed asked) := by
  rw [resolve?_eq] at h
  obtain ⟨last, hlast, hown⟩ := Option.bind_eq_some_iff.1 h
  rw [hlast, Option.bind_some]
  cases hname : last.name? with
  | some asked =>
    obtain ⟨htype, hnamed⟩ := isTypeDeclaration_ownAnswer? hname hown
    constructor
    · refine iff_of_true htype fun hdefault => ?_
      cases hdefault
      cases hname
    · rintro _ ⟨⟩
      exact hnamed
  | none =>
    refine ⟨?_, fun _ hasked => by cases hasked⟩
    cases last with
    | name | exported => cases hname
    | defaultExport m =>
      rw [ownAnswer?_defaultExport] at hown
      obtain ⟨n, hn, rfl⟩ := Option.map_eq_some_iff.1 hown
      constructor
      · exact fun htype _ => ⟨n, hn, htype⟩
      · intro hdefault
        obtain ⟨m, hm, htype⟩ := hdefault rfl
        cases hn.symm.trans hm
        exact htype

namespace DefaultProps

def interface : Node := SourceLine.interface ⟨1, 0, 1⟩ "Props" "size" "Size"

def exported : Node := SourceLine.node ⟨12, 31, 2⟩ 3 .identifier true (some .value) 15 "Props" []

def exportLine : Node :=
  let l : SourceLine := ⟨12, 31, 2⟩
  l.node 0 .exportStatement true none 0 "export default Props" [
    l.token 1 0 "export",
    l.token 2 7 "default",
    exported]

def program : Program :=
  .ofSources [moduleOf "src/props.ts" [interface, exportLine],
    moduleOf "src/App.tsx" [SourceLine.defaultImport ⟨1, 0, 1⟩ "T" "./props",
      SourceLine.namedImport ⟨10, 24, 2⟩ "Props" "./props"]]

theorem props_is_interface :
    program.resolve? .type 1 "Props" = some ⟨0, interface⟩ ∧
      program.lastQuestion? .type 1 "Props" = some (.exported 0 "Props") ∧
      interface.isTypeDeclaration ∧ interface.isNamed "Props" := by
  have hresolve : program.resolve? .type 1 "Props" = some ⟨0, interface⟩ := rfl
  have hlast : program.lastQuestion? .type 1 "Props" = some (.exported 0 "Props") := rfl
  obtain ⟨htype, hnamed⟩ := type_name_iff hresolve
  refine ⟨hresolve, hlast, htype.2 fun hdefault => ?_, hnamed "Props" (by rw [hlast]; rfl)⟩
  rw [hlast] at hdefault
  cases hdefault

/-- Imported as the default export, it is not: the name leads to the expression that is exported,
and its type is a reference without a name. -/
theorem default_import_is_expression :
    let d : Declaration := ⟨0, exported⟩
    let bound := ({} : Bindings).after (program.typeOfDeclaration d)
    program.resolve? .type 1 "T" = some d ∧ d.node.kind = .identifier ∧
      d.node.isTypeDeclaration = false ∧ bound.2.table.form bound.1 = .reference "" [] :=
  ⟨rfl, rfl, rfl, by decide +kernel⟩

end DefaultProps

end Program

end PropSchema
