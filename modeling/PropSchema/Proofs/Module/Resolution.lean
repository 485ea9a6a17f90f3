import PropSchema.Module.Resolution
import PropSchema.Proofs.Tree.Numbering

namespace PropSchema

open Node

def Kind.declares? : Kind → Option Namespace
  | .functionDeclaration | .generatorFunctionDeclaration | .functionSignature | .classDeclaration
  | .abstractClassDeclaration | .lexicalDeclaration | .variableDeclaration => some .value
  | .interfaceDeclaration | .typeAliasDeclaration | .enumDeclaration => some .type
  | _ => none

def Kind.isList (k : Kind) : Bool := k == .lexicalDeclaration || k == .variableDeclaration

theorem Node.declarationHere?_eq (n : Node) (space : Namespace) (name : String) :
    n.declarationHere? space name =
      if n.kind.declares? = some space then
        if n.kind.isList then n.parts.find? fun c => c.kind == .variableDeclarator && c.isNamed name
        else if n.isNamed name then some n else none
      else none := by
  unfold declarationHere?
  cases space <;> cases n.kind <;> rfl

theorem Node.declarationOf?_of_ne_ambient {n : Node} (h : n.kind ≠ .ambientDeclaration)
    (space : Namespace) (name : String) :
    n.declarationOf? space name = n.declarationHere? space name := by
  unfold declarationOf?
  split
  · exact absurd rfl h
  · rfl

theorem Node.contains_declarationHere? {space : Namespace} {name : String} {n m : Node}
    (h : n.declarationHere? space name = some m) : n.Contains m := by
  rw [declarationHere?_eq] at h
  split at h
  · split at h
    · exact contains_of_mem_parts (List.mem_of_find?_eq_some h)
    · split at h
      · cases h
        exact .self
      · cases h
  · cases h

mutual

theorem Node.contains_declarationOf? {space : Namespace} {name : String} {m : Node} :
    ∀ {n : Node}, n.declarationOf? space name = some m → n.Contains m
  | ⟨id, kind, named, field, span, line, text, children⟩, h => by
    unfold declarationOf? at h
    split at h
    · next heq =>
      cases heq
      obtain ⟨c, hc, hm⟩ := contains_declarationAmong? h
      exact .child hc hm
    · exact contains_declarationHere? h

theorem Node.contains_declarationAmong? {space : Namespace} {name : String} {m : Node} :
    ∀ {children : List Node}, declarationAmong? space name children = some m →
      ∃ c ∈ children, c.Contains m
  | c :: rest, h => by
    rw [declarationAmong?] at h
    split at h
    · cases hc : declarationOf? space name c with
      | some found =>
        rw [hc] at h
        cases h
        exact ⟨c, List.mem_cons_self, contains_declarationOf? hc⟩
      | none =>
        rw [hc] at h
        obtain ⟨c', hc', hm⟩ := contains_declarationAmong? h
        exact ⟨c', List.mem_cons_of_mem c hc', hm⟩
    · obtain ⟨c', hc', hm⟩ := contains_declarationAmong? h
      exact ⟨c', List.mem_cons_of_mem c hc', hm⟩

end

namespace Program

variable {P : Program} {space : Namespace}

def Has (P : Program) (d : Declaration) : Prop := (P.moduleAt d.file).tree.Contains d.node

theorem has_of_statement {file : FileId} {statement n : Node} (hs : statement ∈ P.statements file)
    (h : statement.Contains n) : P.Has ⟨file, n⟩ :=
  (contains_of_mem_parts hs).trans h

theorem contains_of_declaration {statement n : Node} {name : String}
    (h : (statement.child? .declaration).bind (Node.declarationOf? space name) = some n) :
    statement.Contains n := by
  obtain ⟨declaration, hd, hn⟩ := Option.bind_eq_some_iff.1 h
  exact (contains_of_child? hd).trans (contains_declarationOf? hn)

theorem clauseTarget?_ne_here {file : FileId} {statement n : Node} {exported : String} :
    P.clauseTarget? file statement exported ≠ some (.here n) := by
  intro h
  simp only [clauseTarget?, Option.bind_eq_bind, Option.bind_eq_some_iff] at h
  obtain ⟨clause, -, name, -, h⟩ := h
  split at h <;> cases h

theorem importTarget?_ne_here {file : FileId} {statement n : Node} {name : String} :
    P.importTarget? file statement name ≠ some (.here n) := by
  intro h
  simp only [importTarget?, Option.bind_eq_bind, Option.bind_eq_some_iff] at h
  obtain ⟨clause, -, imported, -, h⟩ := h
  split at h <;> cases h

theorem contains_nameTarget? {file : FileId} {statement n : Node} {name : String}
    (h : P.nameTarget? space file name statement = some (.here n)) : statement.Contains n := by
  rw [nameTarget?] at h
  split at h
  · obtain ⟨m, hm, heq⟩ := Option.map_eq_some_iff.1 h
    cases heq
    exact contains_of_declaration hm
  · exact absurd h importTarget?_ne_here
  · obtain ⟨m, hm, heq⟩ := Option.map_eq_some_iff.1 h
    cases heq
    exact contains_declarationOf? hm

theorem contains_defaultTarget? {file : FileId} {statement n : Node}
    (h : P.defaultTarget? file statement = some (.here n)) : statement.Contains n := by
  rw [defaultTarget?] at h
  split at h
  · cases h
  split at h
  · split at h
    · next m hm =>
      cases h
      cases hd : statement.child? .declaration with
      | some d => rw [hd] at hm; cases hm; exact contains_of_child? hd
      | none => rw [hd] at hm; exact contains_of_child? hm
    · cases h
  · exact absurd h clauseTarget?_ne_here

theorem contains_exportTarget? {file : FileId} {statement n : Node} {exported : String}
    (h : P.exportTarget? space file exported statement = some (.here n)) :
    statement.Contains n := by
  rw [exportTarget?] at h
  split at h
  · cases h
  split at h
  · next m hm =>
    cases h
    exact contains_of_declaration hm
  · exact absurd h clauseTarget?_ne_here

section Answer

variable {next : Query → Option Declaration} (hnext : ∀ q d, next q = some d → P.Has d)
  {d : Declaration}

include hnext

theorem has_follow {file : FileId} {target : Target}
    (hhere : ∀ n, target = .here n → P.Has ⟨file, n⟩)
    (h : follow next file target = some d) : P.Has d := by
  cases target with
  | here n =>
    cases h
    exact hhere n rfl
  | elsewhere query => exact hnext query d h
  | external => cases h

theorem has_unnamedExport {file : FileId} {exported : String}
    (h : P.unnamedExport space next file exported = some d) : P.Has d := by
  simp only [unnamedExport, Option.or_eq_some_iff] at h
  cases h with
  | inl h =>
    obtain ⟨s, -, hs⟩ := List.exists_of_findSome?_eq_some h
    obtain ⟨m, -, hm⟩ := Option.bind_eq_some_iff.1 hs
    exact hnext _ d hm
  | inr h =>
    obtain ⟨n, hn, heq⟩ := Option.map_eq_some_iff.1 h.2
    cases heq
    obtain ⟨s, hs, hsn⟩ := List.exists_of_findSome?_eq_some hn
    exact has_of_statement hs (contains_declarationOf? hsn)

theorem has_answer {query : Query} (h : P.answer space next query = some d) : P.Has d := by
  cases query with
  | name file name =>
    obtain ⟨target, htarget, h⟩ := Option.bind_eq_some_iff.1 h
    obtain ⟨s, hs, hst⟩ := List.exists_of_findSome?_eq_some htarget
    refine has_follow hnext (fun n hn => ?_) h
    exact has_of_statement hs (contains_nameTarget? (hn ▸ hst))
  | defaultExport file =>
    obtain ⟨target, htarget, h⟩ := Option.bind_eq_some_iff.1 h
    obtain ⟨s, hs, hst⟩ := List.exists_of_findSome?_eq_some htarget
    refine has_follow hnext (fun n hn => ?_) h
    exact has_of_statement hs (contains_defaultTarget? (hn ▸ hst))
  | exported file exported =>
    rw [answer] at h
    split at h
    · exact hnext _ d h
    split at h
    · next target htarget =>
      obtain ⟨s, hs, hst⟩ := List.exists_of_findSome?_eq_some htarget
      refine has_follow hnext (fun n hn => ?_) h
      exact has_of_statement hs (contains_exportTarget? (hn ▸ hst))
    · exact has_unnamedExport hnext h

end Answer

theorem has_answerAt {limit : Nat} {query : Query} {d : Declaration}
    (h : P.answerAt space limit query = some d) : P.Has d := by
  induction limit generalizing query d with
  | zero => cases h
  | succ limit ih => exact has_answer (fun q e hq => ih hq) h

theorem has_of_resolve? {file : FileId} {name : String} {d : Declaration}
    (h : P.resolve? space file name = some d) : P.Has d :=
  has_answerAt h

def Numbered (P : Program) : Prop := ∀ file, (P.moduleAt file).tree.Numbered

theorem Numbered.eq_of_key (hP : P.Numbered) {d e : Declaration} (hd : P.Has d) (he : P.Has e)
    (h : (d.file, d.node.id) = (e.file, e.node.id)) : d = e := by
  obtain ⟨file, n⟩ := d
  obtain ⟨file', m⟩ := e
  obtain ⟨rfl, hid⟩ := Prod.mk.injEq .. ▸ h
  rw [hP file n m hd he hid]

theorem modules_linkAll (Q : Program) (file : FileId) : (Q.linkAll file).modules = Q.modules := by
  rw [linkAll]
  apply List.foldlRecOn (motive := fun R : Program => R.modules = Q.modules)
  · rfl
  · intro R hR specifier _
    split
    · exact hR
    · exact hR

end Program

def SourceModule.read (path source : String) (items : List Preorder.Item) : SourceModule :=
  ⟨⟨path⟩, (Node.ofPreorder? source items).getD .empty⟩

theorem SourceModule.numbered_read (path source : String) (items : List Preorder.Item) :
    (read path source items).tree.Numbered :=
  Node.numbered_getD source items

namespace Program

theorem numbered_ofSources {sources : List SourceModule} (h : ∀ m ∈ sources, m.tree.Numbered) :
    (Program.ofSources sources).Numbered := by
  have hadd : ∀ m ∈ (sources.foldl (fun (Q : Program) m =>
      Q.addModule { m with path := m.path.normalize }) {}).modules, m.tree.Numbered := by
    apply List.foldlRecOn (motive := fun Q : Program => ∀ m ∈ Q.modules, m.tree.Numbered)
    · intro m hm
      exact absurd hm (Array.not_mem_empty m)
    · intro Q hQ m hm m' hm'
      cases Array.mem_push.1 hm' with
      | inl hold => exact hQ m' hold
      | inr hnew => rw [hnew]; exact h m hm
  have hlink : ∀ m ∈ (Program.ofSources sources).modules, m.tree.Numbered := by
    rw [Program.ofSources]
    apply List.foldlRecOn (motive := fun Q : Program => ∀ m ∈ Q.modules, m.tree.Numbered)
    · exact hadd
    · intro Q hQ file _
      rw [modules_linkAll]
      exact hQ
  intro file
  rw [moduleAt, Array.getD]
  split
  · exact hlink _ (Array.getElem_mem _)
  · exact numbered_empty

end Program

end PropSchema
