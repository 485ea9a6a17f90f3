import PropSchema.Component.Props
import PropSchema.Proofs.Tree.Lines

namespace PropSchema.Program

open Node

variable {P : Program} {file : FileId} {n : Node} {levels : Nat}

inductive Layer (P : Program) : Declaration → Option Node → Declaration → Prop
  | memo {file : FileId} {n argument : Node} :
    n.kind = .callExpression → n.calleeName? = some "memo" → n.firstArgument? = some argument →
      P.Layer ⟨file, n⟩ none ⟨file, argument⟩
  | forwardRef {file : FileId} {n argument : Node} :
    n.kind = .callExpression → n.calleeName? = some "forwardRef" →
      n.firstArgument? = some argument → P.Layer ⟨file, n⟩ n.typeArguments[1]? ⟨file, argument⟩
  | declarator {file : FileId} {n value : Node} :
    n.kind = .variableDeclarator → n.child? .value = some value →
      P.Layer ⟨file, n⟩ none ⟨file, value⟩
  | name {file : FileId} {n : Node} {d : Declaration} :
    n.kind = .identifier → P.resolve? .value file n.text = some d → P.Layer ⟨file, n⟩ none d

/-- Layers around a component, from the outermost to the innermost. Of each it is told which type of
the props it names, and in which module. -/
inductive Stack (P : Program) : List (Option (FileId × Node)) → Declaration → Declaration → Prop
  | nil {d : Declaration} : P.Stack [] d d
  | cons {outer middle inner : Declaration} {own : Option Node}
      {layers : List (Option (FileId × Node))} :
    P.Layer outer own middle → P.Stack layers middle inner →
      P.Stack (own.map (outer.file, ·) :: layers) outer inner

/-- With some levels left, the search from a component finds the type of its props in so many steps.
The annotation of a variable is looked at only if nothing is found in its value. -/
inductive FindsIn (P : Program) : Nat → Declaration → Nat → FileId × Node → Prop
  | written {levels : Nat} {file : FileId} {n type : Node} :
    n.kind ≠ .variableDeclarator → P.propsSource file n = .type type →
      P.FindsIn (levels + 1) ⟨file, n⟩ 0 (file, type)
  | onward {levels steps : Nat} {file : FileId} {n : Node} {d : Declaration}
      {found : FileId × Node} :
    n.kind ≠ .variableDeclarator → P.propsSource file n = .component d.file d.node →
      P.FindsIn levels d steps found → P.FindsIn (levels + 1) ⟨file, n⟩ (steps + 1) found
  | value {levels steps : Nat} {file : FileId} {n value : Node} {found : FileId × Node} :
    n.kind = .variableDeclarator → n.child? .value = some value →
      P.FindsIn levels ⟨file, value⟩ steps found →
      P.FindsIn (levels + 1) ⟨file, n⟩ (steps + 1) found
  | annotated {levels : Nat} {file : FileId} {n type : Node} :
    n.kind = .variableDeclarator →
      (∀ value, n.child? .value = some value → P.propsNodeAt levels file value = none) →
      n.annotatedProps? = some type → P.FindsIn (levels + 1) ⟨file, n⟩ 0 (file, type)

theorem propsNodeAt_of_variable (h : n.kind = .variableDeclarator) :
    P.propsNodeAt (levels + 1) file n =
      ((n.child? .value).bind (P.propsNodeAt levels file)).or
        (n.annotatedProps?.map (file, ·)) := by
  rw [propsNodeAt, h]
  rfl

theorem propsNodeAt_of_type {type : Node} (h : n.kind ≠ .variableDeclarator)
    (hsource : P.propsSource file n = .type type) :
    P.propsNodeAt (levels + 1) file n = some (file, type) := by
  rw [propsNodeAt, if_neg (by simpa using h), hsource]

theorem propsNodeAt_of_component {d : Declaration} (h : n.kind ≠ .variableDeclarator)
    (hsource : P.propsSource file n = .component d.file d.node) :
    P.propsNodeAt (levels + 1) file n = P.propsNodeAt levels d.file d.node := by
  rw [propsNodeAt, if_neg (by simpa using h), hsource]

theorem propsNodeAt_of_unknown (h : n.kind ≠ .variableDeclarator)
    (hsource : P.propsSource file n = .unknown) : P.propsNodeAt (levels + 1) file n = none := by
  rw [propsNodeAt, if_neg (by simpa using h), hsource]

theorem propsNodeAt_eq_none_of_le {fewer : Nat} (hle : fewer ≤ levels)
    (h : P.propsNodeAt levels file n = none) : P.propsNodeAt fewer file n = none := by
  induction fewer generalizing levels file n with
  | zero => rfl
  | succ fewer ih =>
    obtain ⟨levels, rfl⟩ : ∃ k, levels = k + 1 := ⟨levels - 1, by omega⟩
    have hle := Nat.le_of_succ_le_succ hle
    by_cases hkind : n.kind = .variableDeclarator
    · rw [propsNodeAt_of_variable hkind] at h ⊢
      rw [Option.or_eq_none_iff, Option.bind_eq_none_iff] at h ⊢
      exact ⟨fun value hvalue => ih hle (h.1 value hvalue), h.2⟩
    · cases hsource : P.propsSource file n with
      | type type => rw [propsNodeAt_of_type hkind hsource] at h; cases h
      | component file' n' =>
        rw [propsNodeAt_of_component (d := ⟨file', n'⟩) hkind hsource] at h ⊢
        exact ih hle h
      | unknown => exact propsNodeAt_of_unknown hkind hsource

theorem exists_findsIn {d : Declaration} {found : FileId × Node}
    (h : P.propsNodeAt levels d.file d.node = some found) :
    ∃ steps, P.FindsIn levels d steps found := by
  induction levels generalizing d with
  | zero => cases h
  | succ levels ih =>
    obtain ⟨file, n⟩ := d
    by_cases hkind : n.kind = .variableDeclarator
    · rw [propsNodeAt_of_variable hkind, Option.or_eq_some_iff] at h
      cases h with
      | inl h =>
        obtain ⟨value, hvalue, h⟩ := Option.bind_eq_some_iff.1 h
        obtain ⟨steps, hsteps⟩ := ih (d := ⟨file, value⟩) h
        exact ⟨steps + 1, .value hkind hvalue hsteps⟩
      | inr h =>
        obtain ⟨type, htype, rfl⟩ := Option.map_eq_some_iff.1 h.2
        exact ⟨0, .annotated hkind (Option.bind_eq_none_iff.1 h.1) htype⟩
    · cases hsource : P.propsSource file n with
      | type type =>
        rw [propsNodeAt_of_type hkind hsource] at h
        cases h
        exact ⟨0, .written hkind hsource⟩
      | component file' n' =>
        rw [propsNodeAt_of_component (d := ⟨file', n'⟩) hkind hsource] at h
        obtain ⟨steps, hsteps⟩ := ih h
        exact ⟨steps + 1, .onward hkind hsource hsteps⟩
      | unknown => rw [propsNodeAt_of_unknown hkind hsource] at h; cases h

theorem propsNodeAt_eq_some_iff {d : Declaration} {found : FileId × Node} :
    P.propsNodeAt levels d.file d.node = some found ↔ ∃ steps, P.FindsIn levels d steps found := by
  refine ⟨exists_findsIn, ?_⟩
  rintro ⟨steps, h⟩
  induction h with
  | written hkind hsource => exact propsNodeAt_of_type hkind hsource
  | onward hkind hsource _ ih => rw [propsNodeAt_of_component hkind hsource, ih]
  | value hkind hvalue _ ih =>
    rw [propsNodeAt_of_variable hkind, hvalue, Option.bind_some, ih]
    rfl
  | annotated hkind hnone htype =>
    rw [propsNodeAt_of_variable hkind, Option.bind_eq_none_iff.2 hnone, htype]
    rfl

theorem FindsIn.fewer {d : Declaration} {steps fewer : Nat} {found : FileId × Node}
    (h : P.FindsIn levels d steps found) (hsteps : steps < fewer) (hle : fewer ≤ levels) :
    P.FindsIn fewer d steps found := by
  induction fewer generalizing levels d steps with
  | zero => exact absurd hsteps (Nat.not_lt_zero steps)
  | succ fewer ih =>
    cases h with
    | written hkind hsource => exact .written hkind hsource
    | onward hkind hsource h => exact .onward hkind hsource (ih h (by omega) (by omega))
    | value hkind hvalue h => exact .value hkind hvalue (ih h (by omega) (by omega))
    | annotated hkind hnone htype =>
      -- The value gives nothing with fewer levels either.
      have hle := Nat.le_of_succ_le_succ hle
      exact .annotated hkind (fun v hv => propsNodeAt_eq_none_of_le hle (hnone v hv)) htype

theorem propsSource_of_call (h : n.kind = .callExpression) :
    P.propsSource file n = callSource file n := by
  rw [propsSource, isFunction, h]
  rfl

theorem propsSource_of_identifier (h : n.kind = .identifier) {d : Declaration}
    (hd : P.resolve? .value file n.text = some d) :
    P.propsSource file n = .component d.file d.node := by
  rw [propsSource, isFunction, h]
  simp only [hd]
  rfl

theorem propsSource_of_memo {argument : Node} (hkind : n.kind = .callExpression)
    (hname : n.calleeName? = some "memo") (hargument : n.firstArgument? = some argument) :
    P.propsSource file n = .component file argument := by
  rw [propsSource_of_call hkind]
  simp only [callSource, hname, hargument]

theorem propsSource_of_forwardRef {argument : Node} (hkind : n.kind = .callExpression)
    (hname : n.calleeName? = some "forwardRef") (hargument : n.firstArgument? = some argument) :
    P.propsSource file n = n.typeArguments[1]?.elim (.component file argument) .type := by
  rw [propsSource_of_call hkind]
  simp only [callSource, hname, hargument]
  cases n.typeArguments with
  | nil => rfl
  | cons first rest => cases rest <;> rfl

theorem Layer.transparent {outer inner : Declaration} {found : FileId × Node}
    (h : P.Layer outer none inner)
    (hfound : P.propsNodeAt levels inner.file inner.node = some found) :
    P.propsNodeAt (levels + 1) outer.file outer.node = some found := by
  generalize hown : (none : Option Node) = own at h
  cases h with
  | @memo file n argument hkind hname hargument =>
    have hsource : P.propsSource file n = .component file argument :=
      propsSource_of_memo hkind hname hargument
    rw [propsNodeAt_of_component (d := ⟨file, argument⟩) (by simp [hkind]) hsource, hfound]
  | @forwardRef file n argument hkind hname hargument =>
    have hsource : P.propsSource file n = _ := propsSource_of_forwardRef hkind hname hargument
    rw [← hown] at hsource
    rw [propsNodeAt_of_component (d := ⟨file, argument⟩) (by simp [hkind]) hsource, hfound]
  | declarator hkind hvalue =>
    rw [propsNodeAt_of_variable hkind, hvalue, Option.bind_some, hfound]
    rfl
  | name hkind hd =>
    have hsource := propsSource_of_identifier hkind hd
    rw [propsNodeAt_of_component (by simp [hkind]) hsource, hfound]

theorem Layer.explicit {outer inner : Declaration} {type : Node}
    (h : P.Layer outer (some type) inner) :
    P.propsNodeAt (levels + 1) outer.file outer.node = some (outer.file, type) := by
  generalize hown : some type = own at h
  cases h with
  | @forwardRef file n argument hkind hname hargument =>
    have hsource : P.propsSource file n = _ := propsSource_of_forwardRef hkind hname hargument
    rw [← hown] at hsource
    exact propsNodeAt_of_type (by simp [hkind]) hsource
  | memo | declarator | name => cases hown

theorem Stack.transparent {outer inner : Declaration} {found : FileId × Node}
    {layers : List (Option (FileId × Node))} (h : P.Stack layers outer inner)
    (hlayers : layers.findSome? id = none)
    (hfound : P.propsNodeAt levels inner.file inner.node = some found) :
    P.propsNodeAt (levels + layers.length) outer.file outer.node = some found := by
  induction h with
  | nil => exact hfound
  | @cons outer middle inner own layers hlayer _ ih =>
    cases own with
    | none => exact hlayer.transparent (ih hlayers hfound)
    | some type => cases hlayers

theorem Stack.explicit {outer inner : Declaration} {found : FileId × Node}
    {layers : List (Option (FileId × Node))} (h : P.Stack layers outer inner)
    (hlayers : layers.findSome? id = some found) (hlength : layers.length ≤ levels) :
    P.propsNodeAt levels outer.file outer.node = some found := by
  induction h generalizing levels with
  | nil => cases hlayers
  | @cons outer middle inner own layers hlayer _ ih =>
    obtain ⟨levels, rfl⟩ : ∃ k, levels = k + 1 := ⟨levels - 1, by simp at hlength; omega⟩
    cases own with
    | none => exact hlayer.transparent (ih hlayers (Nat.le_of_succ_le_succ hlength))
    | some type =>
      cases hlayers
      exact hlayer.explicit

theorem propsType_of_propsNode? {d : Declaration} {found : FileId × Node}
    (h : P.propsNode? d = some found) :
    P.propsType d = some <$> P.binderAt bindLevels ⟨found.1, []⟩ found.2 := by
  rw [propsType, Binder.propsType, h]

/-- A component has the same props inside any layers that name none, as long as the steps through
the layers and on to the type are few enough. If some layer names the type of the props, the
outermost of these layers decides, whatever is inside. -/
theorem propsType_wrapped {outer inner : Declaration} {layers : List (Option (FileId × Node))}
    (h : P.Stack layers outer inner) :
    (layers.findSome? id = none → ∀ steps found, P.FindsIn locateLevels inner steps found →
      layers.length + steps ≤ 32 →
        P.propsType outer = P.propsType inner ∧
        P.propsType inner = some <$> P.binderAt bindLevels ⟨found.1, []⟩ found.2) ∧
    (∀ found, layers.findSome? id = some found → layers.length ≤ 33 →
      P.propsType outer = some <$> P.binderAt bindLevels ⟨found.1, []⟩ found.2) := by
  constructor
  · intro hlayers steps found hfinds hsteps
    have hinner := propsType_of_propsNode? (propsNodeAt_eq_some_iff.2 ⟨steps, hfinds⟩)
    have hfewer : P.FindsIn (locateLevels - layers.length) inner steps found :=
      hfinds.fewer (by rw [locateLevels]; omega) (Nat.sub_le _ _)
    have houter := h.transparent hlayers (propsNodeAt_eq_some_iff.2 ⟨steps, hfewer⟩)
    rw [Nat.sub_add_cancel (by rw [locateLevels]; omega)] at houter
    rw [hinner]
    exact ⟨propsType_of_propsNode? houter, rfl⟩
  · intro found hlayers hlength
    exact propsType_of_propsNode? (h.explicit hlayers hlength)

namespace WrappedInput

def declaring : SourceLine := ⟨1, 0, 1⟩

def props : Node :=
  declaring.node 27 .annotatedType true (some .type) 51 ": Props" [
    declaring.token 28 51 ":",
    declaring.typeName 29 none 53 "Props"]

def component : Node :=
  declaring.node 22 .arrowFunction true none 49 "(p: Props) => null" [
    declaring.node 23 (.other "formal_parameters") true (some .parameters) 49 "(p: Props)" [
      declaring.token 24 49 "(",
      declaring.node 25 .requiredParameter true none 50 "p: Props" [
        declaring.node 26 .identifier true (some .pattern) 50 "p" [],
        props],
      declaring.token 30 58 ")"],
    declaring.token 31 60 "=>",
    declaring.node 32 .null true (some .body) 63 "null" []]

def forwarded : Node :=
  declaring.node 15 .callExpression true (some .value) 32 "React.forwardRef((p: Props) => null)" [
    declaring.node 16 .memberExpression true (some .function) 32 "React.forwardRef" [
      declaring.node 17 .identifier true none 32 "React" [],
      declaring.token 18 37 ".",
      declaring.node 19 .propertyIdentifier true (some .property) 38 "forwardRef" []],
    declaring.node 20 (.other "arguments") true (some .arguments) 48 "((p: Props) => null)" [
      declaring.token 21 48 "(",
      component,
      declaring.token 33 67 ")"]]

def input : Node :=
  declaring.node 4 .variableDeclarator true none 13 ("Input: FC<Other> = " ++ forwarded.text) [
    declaring.node 5 .identifier true (some .name) 13 "Input" [],
    declaring.node 6 .annotatedType true (some .type) 18 ": FC<Other>" [
      declaring.token 7 18 ":",
      declaring.node 8 .genericType true none 20 "FC<Other>" [
        declaring.typeName 9 (some .name) 20 "FC",
        declaring.node 10 (.other "type_arguments") true (some .typeArguments) 22 "<Other>" [
          declaring.token 11 22 "<",
          declaring.typeName 12 none 23 "Other",
          declaring.token 13 28 ">"]]],
    declaring.token 14 30 "=",
    forwarded]

def declaringLine : Node :=
  declaring.node 0 .exportStatement true none 0 ("export const " ++ input.text) [
    declaring.token 1 0 "export",
    declaring.node 2 .lexicalDeclaration true (some .declaration) 7 ("const " ++ input.text) [
      declaring.token 3 7 "const",
      input]]

def exporting : SourceLine := ⟨14, 32, 2⟩

def inputName : Node := exporting.node 17 .identifier true none 43 "Input" []

def field : Node := exporting.typeName 13 none 36 "Field"

def explicit : Node :=
  exporting.node 7 .callExpression true none 20 "forwardRef<Ref, Field>(Input)" [
    exporting.node 8 .identifier true (some .function) 20 "forwardRef" [],
    exporting.node 9 (.other "type_arguments") true (some .typeArguments) 30 "<Ref, Field>" [
      exporting.token 10 30 "<",
      exporting.typeName 11 none 31 "Ref",
      exporting.token 12 34 ",",
      field,
      exporting.token 14 41 ">"],
    exporting.node 15 (.other "arguments") true (some .arguments) 42 "(Input)" [
      exporting.token 16 42 "(",
      inputName,
      exporting.token 18 48 ")"]]

def outermost : Node :=
  exporting.node 3 .callExpression true (some .value) 15 ("memo(" ++ explicit.text ++ ")") [
    exporting.node 4 .identifier true (some .function) 15 "memo" [],
    exporting.node 5 (.other "arguments") true (some .arguments) 19 ("(" ++ explicit.text ++ ")") [
      exporting.token 6 19 "(",
      explicit,
      exporting.token 19 49 ")"]]

def exportingLine : Node :=
  exporting.node 0 .exportStatement true none 0 ("export default " ++ outermost.text) [
    exporting.token 1 0 "export",
    exporting.token 2 7 "default",
    outermost]

def program : Program :=
  .ofSources [moduleOf "src/Input.tsx" [declaringLine],
    moduleOf "src/Form.tsx" [SourceLine.namedImport ⟨1, 0, 1⟩ "Input" "./Input", exportingLine]]

theorem stack_inputName : program.Stack [none, none, none] ⟨1, inputName⟩ ⟨0, component⟩ := by
  have hname : program.Layer ⟨1, inputName⟩ none ⟨0, input⟩ := .name rfl rfl
  have hvariable : program.Layer ⟨0, input⟩ none ⟨0, forwarded⟩ := .declarator rfl rfl
  have hcall : program.Layer ⟨0, forwarded⟩ none ⟨0, component⟩ := .forwardRef rfl rfl rfl
  exact .cons hname (.cons hvariable (.cons hcall .nil))

theorem stack_outermost :
    program.Stack [none, some (1, field), none, none, none] ⟨1, outermost⟩ ⟨0, component⟩ := by
  have hmemo : program.Layer ⟨1, outermost⟩ none ⟨1, explicit⟩ := .memo rfl rfl rfl
  have hcall : program.Layer ⟨1, explicit⟩ (some field) ⟨1, inputName⟩ := .forwardRef rfl rfl rfl
  exact .cons hmemo (.cons hcall stack_inputName)

theorem propsType_form :
    program.defaultExport? 1 = some ⟨1, outermost⟩ ∧
      program.Stack [none, some (1, field), none, none, none] ⟨1, outermost⟩ ⟨0, component⟩ ∧
      program.FindsIn locateLevels ⟨0, component⟩ 0 (0, props) ∧
      program.propsType ⟨1, inputName⟩ = program.propsType ⟨0, component⟩ ∧
      program.propsType ⟨1, outermost⟩ =
        some <$> program.binderAt bindLevels ⟨1, []⟩ field := by
  have hfinds : program.FindsIn locateLevels ⟨0, component⟩ 0 (0, props) :=
    .written (by decide) rfl
  refine ⟨rfl, stack_outermost, hfinds, ?_, ?_⟩
  · exact ((propsType_wrapped stack_inputName).1 rfl 0 _ hfinds (by decide)).1
  · exact (propsType_wrapped stack_outermost).2 _ rfl (by decide)

end WrappedInput

end PropSchema.Program
