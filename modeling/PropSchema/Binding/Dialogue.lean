import PropSchema.Binding.Utility
import PropSchema.Tree.Node

/-!
Dialogues: what type syntax asks for while its type is found. A dialogue is one question after the
other, each with what is done with its answer; who answers is left open.
-/

namespace PropSchema

structure Scope where
  file : FileId
  params : List String
  deriving DecidableEq, Repr

/-- The type of nested syntax; a new type; the type interned under a form; a union or an
intersection; the members of a type; the names that a type of keys lists; the text of a type. -/
inductive Question
  | type (scope : Scope) (n : Node)
  | add (f : Form) (plain : f.isPlain)
  | intern (f : Form) (plain : f.isPlain)
  | union (types : List TypeId)
  | intersection (types : List TypeId)
  | members (type : TypeId)
  | keyNames (keys : TypeId)
  | display (type : TypeId)

def Question.Answer : Question → Type
  | .members _ => List Member
  | .keyNames _ => List String
  | .display _ => String
  | _ => TypeId

inductive Dialogue (α : Type)
  | done (value : α)
  | ask (q : Question) (next : q.Answer → Dialogue α)

namespace Dialogue

def bind {α β : Type} : Dialogue α → (α → Dialogue β) → Dialogue β
  | .done value, next => next value
  | .ask q rest, next => .ask q fun answer => (rest answer).bind next

instance : Monad Dialogue where
  pure := .done
  bind := .bind

theorem bind_done {α : Type} (d : Dialogue α) : d.bind .done = d := by
  induction d with
  | done value => rfl
  | ask q rest ih =>
    apply congrArg (ask q)
    funext answer
    exact ih answer

theorem bind_assoc {α β γ : Type} (d : Dialogue α) (f : α → Dialogue β) (g : β → Dialogue γ) :
    (d.bind f).bind g = d.bind fun value => (f value).bind g := by
  induction d with
  | done value => rfl
  | ask q rest ih =>
    apply congrArg (ask q)
    funext answer
    exact ih answer

instance : LawfulMonad Dialogue := LawfulMonad.mk' Dialogue bind_done (fun _ _ => rfl) bind_assoc

def typeOf (scope : Scope) (n : Node) : Dialogue TypeId := .ask (.type scope n) .done

def add (f : Form) (plain : f.isPlain := by rfl) : Dialogue TypeId := .ask (.add f plain) .done

def intern (f : Form) (plain : f.isPlain := by rfl) : Dialogue TypeId :=
  .ask (.intern f plain) .done

def union (types : List TypeId) : Dialogue TypeId := .ask (.union types) .done

def intersection (types : List TypeId) : Dialogue TypeId := .ask (.intersection types) .done

def members (type : TypeId) : Dialogue (List Member) := .ask (.members type) .done

def keyNames (keys : TypeId) : Dialogue (List String) := .ask (.keyNames keys) .done

def display (type : TypeId) : Dialogue String := .ask (.display type) .done

def primitive (p : Primitive) : Dialogue TypeId := intern (.primitive p)

def truth (value : Bool) : Dialogue TypeId := intern (.booleanLiteral value)

def boolean : Dialogue TypeId := do
  let no ← truth false
  let yes ← truth true
  union [no, yes]

def optional (declared : TypeId) : Dialogue TypeId := do
  let undefined ← primitive .undefined
  union [declared, undefined]

def memberOptional (m : Member) : Dialogue Member := do
  return { m with site := ← optional m.declared, optional := true }

def utilityMembers (ms : List Member) : Utility → List TypeId → Dialogue (Option (List Member))
  | .optional, [_] => do return some (← ms.mapM memberOptional)
  | .required, [_] => return some (ms.map fun m => { m with site := m.declared, optional := false })
  | .readonly, [_] => return some ms
  | .picking, [_, keys] => do
    let names ← keyNames keys
    return some (ms.filter fun m => names.contains m.name)
  | .omitting, [_, keys] => do
    let names ← keyNames keys
    return some (ms.filter fun m => ! names.contains m.name)
  | _, _ => return none

def utility (u : Utility) (args : List TypeId) : Dialogue (Option TypeId) :=
  match args with
  | [] => return none
  | first :: _ => do
    let ms ← members first
    if ms.isEmpty then return none
    else
      match ← utilityMembers ms u args with
      | none => return none
      | some ms =>
        let texts ← args.mapM display
        let name := u.name ++ "<" ++ ", ".intercalate texts ++ ">"
        return some (← add (.object ⟨some name, ms, []⟩))

end Dialogue

end PropSchema
