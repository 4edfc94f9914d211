import Renaming.ClassFile.Instruction
import Renaming.Rewrite

/-!
# Rewriting instructions

An instruction keeps its offset, opcode and width. The name at a call site is that of the method of
a functional interface if the site makes a lambda, and otherwise means nothing outside of it.
-/

namespace Renaming.Site

def lambdaFactory : String := "java/lang/invoke/LambdaMetafactory"

/-- The method of a functional interface that a call site implements, if it makes a lambda: the
site returns the interface, and the first argument of its bootstrap method is the descriptor. -/
def lambdaMethod? (s : Site) (bootstrap : UInt16) (callSite : NameAndType) : Option MemberKey := do
  let entry ← s.bootstrapMethods[bootstrap.toNat]?
  let .methodHandle _ factory := entry.method | none
  if factory.owner ≠ lambdaFactory then none
  if factory.name ≠ "metafactory" && factory.name ≠ "altMetafactory" then none
  let .methodType erased ← entry.arguments.head? | none
  let site ← (MethodDescriptor.parse callSite.descriptor).toOption
  let .object interface ← site.returnType | none
  return ⟨interface, callSite.name, erased⟩

def callSite (s : Site) (bootstrap : UInt16) (v : NameAndType) : Rewriting NameAndType := do
  let name ← match s.lambdaMethod? bootstrap v with
    | some key => s.methodName key
    | none => pure v.name
  return ⟨name, ← s.descriptor v.descriptor⟩

def operand (s : Site) : Operand → Rewriting Operand
  | .constant c => return .constant (← s.constant c)
  | .member r => return .member (← s.memberRef r)
  | .invokeInterface r count => return .invokeInterface (← s.memberRef r) count
  | .invokeDynamic bootstrap v => return .invokeDynamic bootstrap (← s.callSite bootstrap v)
  | .classRef name => return .classRef (← s.classReference name)
  | .multiArray name dimensions => return .multiArray (← s.classReference name) dimensions
  | o => return o

def instruction (s : Site) (i : Instruction) : Rewriting Instruction :=
  return { i with operand := ← s.operand i.operand }

end Renaming.Site
