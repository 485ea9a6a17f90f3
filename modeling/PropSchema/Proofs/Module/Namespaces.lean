import Mathlib.Data.List.Forall2
import PropSchema.Proofs.Module.Sources
import PropSchema.Proofs.Module.Unnumbered
import PropSchema.Proofs.Tree.Lines

namespace PropSchema

inductive Drops {α : Type} (p : α → Prop) : List α → List α → Prop
  | nil : Drops p [] []
  | keep {a : α} {l m : List α} : Drops p l m → Drops p (a :: l) (a :: m)
  | drop {a : α} {l m : List α} : p a → Drops p l m → Drops p (a :: l) m

namespace Drops

variable {α β : Type} {p : α → Prop} {l m : List α}

theorem refl (l : List α) : Drops p l l := by
  induction l with
  | nil => exact .nil
  | cons a l ih => exact .keep ih

theorem filter (q : α → Bool) (h : Drops p l m) : Drops p (l.filter q) (m.filter q) := by
  induction h with
  | nil => exact .nil
  | @keep a l m _ ih =>
    cases hq : q a with
    | true => simpa [hq] using ih.keep
    | false => simpa [hq] using ih
  | @drop a l m hp _ ih =>
    cases hq : q a with
    | true => simpa [hq] using ih.drop hp
    | false => simpa [hq] using ih

theorem findSome?_eq {f : α → Option β} (hp : ∀ a, p a → f a = none) (h : Drops p l m) :
    m.findSome? f = l.findSome? f := by
  induction h with
  | nil => rfl
  | keep _ ih => simp only [List.findSome?_cons, ih]
  | drop ha _ ih => rw [List.findSome?_cons, hp _ ha, ih]

theorem filterMap_eq {f : α → Option β} (hp : ∀ a, p a → f a = none) (h : Drops p l m) :
    m.filterMap f = l.filterMap f := by
  induction h with
  | nil => rfl
  | keep _ ih => simp only [List.filterMap_cons, ih]
  | drop ha _ ih => rw [List.filterMap_cons_none (hp _ ha), ih]

end Drops

theorem Kind.ne_of_declares? {k k' : Kind} {space : Namespace} (h : k.declares? = some space)
    (h' : k'.declares? = none) : k ≠ k' := by
  rintro rfl
  simp [h] at h'

namespace Node

/-- The statement does nothing but declare names of the namespace, which it may export under these
names. -/
inductive DeclaresOnly (space : Namespace) : Node → Prop
  | bare {n : Node} : n.kind.declares? = some space → DeclaresOnly space n
  | exported {n d : Node} : n.kind = .exportStatement → n.child? .declaration = some d →
    d.kind.declares? = some space → (∀ c ∈ n.parts, c.kind ≠ .exportClause) →
    n.child? .source = none → n.hasMark .default = false → n.hasMark .star = false →
    DeclaresOnly space n

theorem declarationOf?_of_declares {n : Node} {space other : Namespace} (hne : space ≠ other)
    (h : n.kind.declares? = some other) (name : String) : n.declarationOf? space name = none := by
  rw [declarationOf?_of_ne_ambient (Kind.ne_of_declares? h rfl), declarationHere?_eq, h]
  exact if_neg fun heq => hne (Option.some.inj heq).symm

end Node

open Node

namespace Node.DeclaresOnly

variable {P : Program} {file : FileId} {space other : Namespace} {n : Node}

section

variable (hne : space ≠ other) (h : n.DeclaresOnly other) (name : String)

include hne h

theorem declarationOf?_eq_none : n.declarationOf? space name = none := by
  cases h with
  | bare hkind => exact declarationOf?_of_declares hne hkind name
  | exported hkind =>
    rw [declarationOf?_of_ne_ambient (by simp [hkind]), declarationHere?_eq, hkind]
    rfl

theorem exportTarget?_eq_none : P.exportTarget? space file name n = none := by
  cases h with
  | bare hkind =>
    have hexport : n.kind ≠ .exportStatement := Kind.ne_of_declares? hkind rfl
    simp [Program.exportTarget?, hexport]
  | exported hkind hd hspace hclause =>
    have hnone : n.parts.find? (·.kind == .exportClause) = none := by simpa using hclause
    simp [Program.exportTarget?, hkind, hd, declarationOf?_of_declares hne hspace,
      Program.clauseTarget?, hnone]

theorem nameTarget?_eq_none : P.nameTarget? space file name n = none := by
  cases h with
  | bare hkind =>
    rw [Program.nameTarget?]
    split
    · next hexport => exact absurd hexport (Kind.ne_of_declares? hkind rfl)
    · next himport => exact absurd himport (Kind.ne_of_declares? hkind rfl)
    · rw [declarationOf?_of_declares hne hkind]
      rfl
  | exported hkind hd hspace =>
    simp [Program.nameTarget?, hkind, hd, declarationOf?_of_declares hne hspace]

end

variable (h : n.DeclaresOnly other)

include h

theorem defaultTarget?_eq_none : P.defaultTarget? file n = none := by
  cases h with
  | bare hkind =>
    have hexport : n.kind ≠ .exportStatement := Kind.ne_of_declares? hkind rfl
    simp [Program.defaultTarget?, hexport]
  | exported hkind _ _ hclause _ hdefault =>
    have hnone : n.parts.find? (·.kind == .exportClause) = none := by simpa using hclause
    simp [Program.defaultTarget?, hkind, hdefault, Program.clauseTarget?, hnone]

theorem starOrigin?_eq_none : P.starOrigin? file n = none := by
  cases h with
  | bare hkind =>
    have hexport : n.kind ≠ .exportStatement := Kind.ne_of_declares? hkind rfl
    simp [Program.starOrigin?, hexport]
  | exported _ _ _ _ _ _ hstar => simp [Program.starOrigin?, hstar]

end Node.DeclaresOnly

structure SourceModule.Deletes (space : Namespace) (m m' : SourceModule) : Prop where
  path : m'.path = m.path
  children : Drops (DeclaresOnly space) m.tree.unnumbered.children m'.tree.unnumbered.children

structure Program.Deletes (P : Program) (space : Namespace) (Q : Program) : Prop where
  modules : List.Forall₂ (SourceModule.Deletes space) P.modules.toList Q.modules.toList
  index : Q.index = P.index
  links : Q.links = P.links

namespace Program

variable {P Q : Program} {space other : Namespace}

section

variable (h : P.Deletes other Q)

include h

theorem Deletes.size : Q.modules.size = P.modules.size := by
  simpa using h.modules.length_eq.symm

theorem Deletes.moduleAt (file : FileId) : (P.moduleAt file).Deletes other (Q.moduleAt file) := by
  by_cases hfile : file < P.modules.size
  · have hfile' : file < Q.modules.size := h.size ▸ hfile
    simpa [Program.moduleAt, Array.getD, hfile, hfile'] using h.modules.get hfile hfile'
  · have hfile' : ¬ file < Q.modules.size := h.size ▸ hfile
    simpa [Program.moduleAt, Array.getD, hfile, hfile'] using ⟨rfl, .refl _⟩

theorem Deletes.statements (file : FileId) :
    Drops (DeclaresOnly other) (P.unnumbered.statements file) (Q.unnumbered.statements file) := by
  rw [Program.statements, Program.statements, moduleAt_unnumbered, moduleAt_unnumbered]
  exact (h.moduleAt file).children.filter _

end

theorem targets_of_links (h : Q.links = P.links) :
    Q.nameTarget? = P.nameTarget? ∧ Q.defaultTarget? = P.defaultTarget? ∧
      Q.exportTarget? = P.exportTarget? ∧ Q.starOrigin? = P.starOrigin? := by
  cases P
  cases Q
  cases h
  exact ⟨rfl, rfl, rfl, rfl⟩

section

variable (hne : space ≠ other) (h : P.Deletes other Q) (next : Query → Option Declaration)

include hne h

theorem Deletes.unnamedExport_eq (file : FileId) (exported : String) :
    Q.unnumbered.unnamedExport space next file exported =
      P.unnumbered.unnamedExport space next file exported := by
  obtain ⟨-, -, -, horigin⟩ := targets_of_links (P := P.unnumbered) (Q := Q.unnumbered) h.links
  have hstar : ∀ n : Node, n.DeclaresOnly other →
      (P.unnumbered.starOrigin? file n).bind (fun m => next (.exported m exported)) = none := by
    intro n hn
    rw [hn.starOrigin?_eq_none]
    rfl
  simp only [unnamedExport, horigin]
  rw [(h.statements file).findSome?_eq hstar,
    (h.statements file).findSome?_eq fun n hn => hn.declarationOf?_eq_none hne exported]

theorem Deletes.answer_eq (query : Query) :
    Q.unnumbered.answer space next query = P.unnumbered.answer space next query := by
  obtain ⟨hname, hdefault, hexport, -⟩ :=
    targets_of_links (P := P.unnumbered) (Q := Q.unnumbered) h.links
  cases query with
  | name file name =>
    rw [answer, answer, hname,
      (h.statements file).findSome?_eq fun n hn => hn.nameTarget?_eq_none hne name]
  | defaultExport file =>
    rw [answer, answer, hdefault,
      (h.statements file).findSome?_eq fun n hn => hn.defaultTarget?_eq_none]
  | exported file exported =>
    rw [answer, answer, hexport, h.unnamedExport_eq hne next,
      (h.statements file).findSome?_eq fun n hn => hn.exportTarget?_eq_none hne exported]

end

theorem Deletes.answerAt_eq (hne : space ≠ other) (h : P.Deletes other Q) (limit : Nat)
    (query : Query) :
    Q.unnumbered.answerAt space limit query = P.unnumbered.answerAt space limit query := by
  induction limit generalizing query with
  | zero => rfl
  | succ limit ih => rw [answerAt, answerAt, funext ih, h.answer_eq hne]

end Program

def Declaration.place (d : Declaration) : FileId × Kind × Span := (d.file, d.node.kind, d.node.span)

theorem Declaration.place_unnumbered (d : Declaration) : d.unnumbered.place = d.place := by
  simp [place, unnumbered]

namespace Program

variable {P Q : Program} {space other : Namespace}

theorem place_resolve? (P : Program) (space : Namespace) (file : FileId) (name : String) :
    (P.resolve? space file name).map Declaration.place =
      (P.unnumbered.answerAt space questionLimit (.name file name)).map Declaration.place := by
  rw [answerAt_unnumbered, Option.map_map, resolve?]
  congr 1
  funext d
  exact d.place_unnumbered.symm

theorem Deletes.resolve?_eq (hne : space ≠ other) (h : P.Deletes other Q) (file : FileId)
    (name : String) :
    (Q.resolve? space file name).map Declaration.place =
      (P.resolve? space file name).map Declaration.place := by
  rw [place_resolve?, place_resolve?, h.answerAt_eq hne]

end Program

theorem SourceModule.specifiers_unnumbered (m : SourceModule) :
    SourceModule.specifiers { m with tree := m.tree.unnumbered } = m.specifiers := by
  simp [specifiers, statements, List.filter_map, List.filterMap_map, Function.comp_def]

theorem SourceModule.Deletes.specifiers {space : Namespace} {m m' : SourceModule}
    (h : m.Deletes space m') : m'.specifiers = m.specifiers := by
  rw [← m.specifiers_unnumbered, ← m'.specifiers_unnumbered, SourceModule.specifiers,
    SourceModule.specifiers, List.filterMap_filter, List.filterMap_filter]
  refine (h.children.filter _).filterMap_eq fun n hn => ?_
  cases hn with
  | bare hkind =>
    have hexport : n.kind ≠ .exportStatement := Kind.ne_of_declares? hkind rfl
    have himport : n.kind ≠ .importStatement := Kind.ne_of_declares? hkind rfl
    simp [hexport, himport]
  | exported _ _ _ _ hsource => simp [hsource]

namespace Program

variable {P Q : Program} {space other : Namespace}

theorem Deletes.addModule (h : P.Deletes space Q) {m m' : SourceModule} (hm : m.Deletes space m') :
    (P.addModule m).Deletes space (Q.addModule m') where
  modules := by
    rw [Program.addModule, Program.addModule, Array.toList_push, Array.toList_push]
    exact List.rel_append h.modules (.cons hm .nil)
  index := by simp [Program.addModule, hm.path, h.index, Program.size, h.size]
  links := h.links

theorem Deletes.withLink (h : P.Deletes space Q) (file : FileId) (specifier : String)
    (target : Option FileId) :
    (P.withLink file specifier target).Deletes space (Q.withLink file specifier target) := by
  cases target with
  | none => exact h
  | some target => exact ⟨h.modules, h.index, congrArg (_ :: ·) h.links⟩

theorem Deletes.linkAll (h : P.Deletes space Q) (file : FileId) :
    (P.linkAll file).Deletes space (Q.linkAll file) := by
  rw [linkAll_eq, linkAll_eq, (h.moduleAt file).specifiers, (h.moduleAt file).path,
    target?_of_index h.index]
  generalize P.target? (P.moduleAt file).path = target
  induction (P.moduleAt file).specifiers generalizing P Q with
  | nil => exact h
  | cons s rest ih => exact ih (h.withLink file s (target s))

theorem Deletes.foldl_linkAll (h : P.Deletes space Q) (files : List FileId) :
    (files.foldl Program.linkAll P).Deletes space (files.foldl Program.linkAll Q) := by
  induction files generalizing P Q with
  | nil => exact h
  | cons file rest ih => exact ih (h.linkAll file)

theorem Deletes.foldl_addModule (h : P.Deletes space Q) {sources sources' : List SourceModule}
    (hsources : List.Forall₂ (SourceModule.Deletes space) sources sources') :
    (sources.foldl (fun P m => P.addModule (placed m)) P).Deletes space
      (sources'.foldl (fun P m => P.addModule (placed m)) Q) := by
  induction hsources generalizing P Q with
  | nil => exact h
  | cons hm _ ih => exact ih (h.addModule ⟨congrArg Path.normalize hm.path, hm.children⟩)

theorem deletes_ofSources {sources sources' : List SourceModule}
    (h : List.Forall₂ (SourceModule.Deletes space) sources sources') :
    (ofSources sources).Deletes space (ofSources sources') := by
  have hunlinked : (unlinked sources).Deletes space (unlinked sources') :=
    Deletes.foldl_addModule ⟨.nil, rfl, rfl⟩ h
  rw [ofSources_eq, ofSources_eq, Program.size, Program.size, hunlinked.size]
  exact hunlinked.foldl_linkAll _

/-- What a name of one namespace leads to does not depend on the declarations of the other one, in
any module: they can be left out of the modules of a program, or of the sources that it is made
of. -/
theorem namespaces_independent (hne : space ≠ other) (file : FileId) (name : String) :
    (∀ P Q : Program, P.Deletes other Q →
      (Q.resolve? space file name).map Declaration.place =
        (P.resolve? space file name).map Declaration.place) ∧
    (∀ sources sources', List.Forall₂ (SourceModule.Deletes other) sources sources' →
      ((ofSources sources').resolve? space file name).map Declaration.place =
        ((ofSources sources).resolve? space file name).map Declaration.place) :=
  ⟨fun _ _ h => h.resolve?_eq hne file name,
    fun _ _ h => (deletes_ofSources h).resolve?_eq hne file name⟩

namespace Tag

def constant : Node :=
  let l : SourceLine := ⟨1, 0, 1⟩
  l.node 0 .exportStatement true none 0 "export const Tag = 0" [
    l.token 1 0 "export",
    l.node 2 .lexicalDeclaration true (some .declaration) 7 "const Tag = 0" [
      l.token 3 7 "const",
      l.node 4 .variableDeclarator true none 13 "Tag = 0" [
        l.node 5 .identifier true (some .name) 13 "Tag" [],
        l.token 6 17 "=",
        l.node 7 .number true (some .value) 19 "0" []]]]

def interface (id : Nat) : Node := SourceLine.interface ⟨id, 21, 2⟩ "Tag" "id" "Id"

def sources (lines : List Node) : List SourceModule :=
  [moduleOf "src/tags.ts" lines,
    moduleOf "src/Tag.tsx" [SourceLine.namedImport ⟨1, 0, 1⟩ "Tag" "./tags"]]

theorem deletes_constant :
    List.Forall₂ (SourceModule.Deletes .value) (sources [constant, interface 9])
      (sources [interface 1]) := by
  have hconstant : constant.unnumbered.DeclaresOnly .value :=
    .exported rfl rfl rfl (by decide) rfl rfl rfl
  exact .cons ⟨rfl, .drop hconstant (.keep .nil)⟩ (.cons ⟨rfl, .refl _⟩ .nil)

theorem deletes_interface :
    List.Forall₂ (SourceModule.Deletes .type) (sources [constant, interface 9])
      (sources [constant]) := by
  have hinterface : (interface 9).unnumbered.DeclaresOnly .type := .bare rfl
  exact .cons ⟨rfl, .keep (.drop hinterface .nil)⟩ (.cons ⟨rfl, .refl _⟩ .nil)

theorem tag_found_alone :
    let P := ofSources (sources [constant, interface 9])
    let types := ofSources (sources [interface 1])
    let values := ofSources (sources [constant])
    P.Deletes .value types ∧ P.Deletes .type values ∧
      (types.resolve? .type 1 "Tag").map Declaration.place =
        (P.resolve? .type 1 "Tag").map Declaration.place ∧
      (values.resolve? .value 1 "Tag").map Declaration.place =
        (P.resolve? .value 1 "Tag").map Declaration.place ∧
      (P.resolve? .type 1 "Tag").map Declaration.place =
        some (0, .interfaceDeclaration, ⟨21, 45⟩) ∧
      (P.resolve? .value 1 "Tag").map Declaration.place =
        some (0, .variableDeclarator, ⟨13, 20⟩) := by
  intro P types values
  have htypes : P.Deletes .value types := deletes_ofSources deletes_constant
  have hvalues : P.Deletes .type values := deletes_ofSources deletes_interface
  refine ⟨htypes, hvalues, ?_, ?_, rfl, rfl⟩
  · exact (namespaces_independent (by decide) 1 "Tag").1 P types htypes
  · exact (namespaces_independent (by decide) 1 "Tag").2 _ _ deletes_interface

end Tag

end Program

end PropSchema
