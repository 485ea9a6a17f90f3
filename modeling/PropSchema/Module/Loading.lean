import PropSchema.Config.Tsconfig
import PropSchema.Disk.Basic
import PropSchema.Error
import PropSchema.Module.Program

/-!
Programs made of files: some roots, and all that they import.
-/

namespace PropSchema

def FileView.module? (v : FileView) (o : CompilerOptions) (importer : Path)
    (specifier : String) : Option Path :=
  let bases := match Specifier.base? importer specifier with
    | some base => [base]
    | none => (o.bases specifier).map Path.normalize
  (bases.flatMap Specifier.files).find? v.isFile

namespace Program

def reach (v : FileView) (path : Path) (P : Program) : Except Error (FileId × Program) :=
  match P.at? path, v.file? path with
  | some file, _ => .ok (file, P)
  | none, some ⟨some _, tree⟩ => .ok (P.size, P.addModule ⟨path, tree⟩)
  | none, _ => .error (.file .readSource path)

def linkTo (v : FileView) (o : CompilerOptions) (file : FileId) (P : Program)
    (specifier : String) : Except Error Program :=
  match v.module? o (P.moduleAt file).path specifier with
  | some path => do
    let (target, P) ← P.reach v path
    return P.addLink file specifier target
  | none => .ok P

def linkFile (v : FileView) (o : CompilerOptions) (file : FileId) (P : Program) :
    Except Error Program :=
  (P.moduleAt file).specifiers.foldlM (linkTo v o file) P

def linkFrom (v : FileView) (o : CompilerOptions) : Nat → FileId → Program → Except Error Program
  | 0, _, P => .ok P
  | limit + 1, file, P =>
    if file < P.size then do linkFrom v o limit (file + 1) (← P.linkFile v o file) else .ok P

def load (v : FileView) (o : CompilerOptions) (roots : List Path) : Except Error Program := do
  let P ← roots.foldlM (fun P root => return (← P.reach v root.normalize).2) ({} : Program)
  P.linkFrom v o v.bound 0

end Program

end PropSchema
