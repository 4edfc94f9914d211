import Renaming.ClassFile.Write
import Renaming.Proofs.ClassFile.Attribute

/-!
# Attributes that are kept as bytes

Putting another pool under the attributes that are kept as bytes changes nothing exactly when all
of them, at every depth, have that pool already.
-/

namespace Renaming

variable {P : Pool}

namespace Attribute

theorem mem_verbatim {as : List Attribute} {x : String × Pool} :
    x ∈ verbatim as ↔ x ∈ verbatimHere as ∨ x ∈ verbatimInside as := List.mem_append

theorem mem_verbatim_code_cons {body : Code Attribute} {as : List Attribute} {x : String × Pool} :
    x ∈ verbatim (code body :: as) ↔ x ∈ verbatim body.attributes ∨ x ∈ verbatim as := by
  obtain ⟨maxStack, maxLocals, instructions, handlers, attributes⟩ := body
  have hHere : verbatimHere (code ⟨maxStack, maxLocals, instructions, handlers, attributes⟩ :: as) =
      verbatimHere as := rfl
  rw [mem_verbatim, hHere, verbatimInside, List.mem_append, ← verbatim, @mem_verbatim as,
    ← or_assoc, or_comm]

theorem mem_verbatimComponents {cs : List (RecordComponent Attribute)} {x : String × Pool} :
    x ∈ verbatimComponents cs ↔ ∃ c ∈ cs, x ∈ verbatim c.attributes := by
  induction cs with
  | nil => simp [verbatimComponents]
  | cons c cs ih =>
    obtain ⟨name, descriptor, attributes⟩ := c
    rw [verbatimComponents, List.mem_append, ih, ← verbatim, List.exists_mem_cons_iff, or_comm]

theorem mem_verbatim_record_cons {cs : List (RecordComponent Attribute)} {as : List Attribute}
    {x : String × Pool} :
    x ∈ verbatim (record cs :: as) ↔ (∃ c ∈ cs, x ∈ verbatim c.attributes) ∨ x ∈ verbatim as := by
  have hHere : verbatimHere (record cs :: as) = verbatimHere as := rfl
  rw [mem_verbatim, hHere, verbatimInside, List.mem_append, mem_verbatimComponents,
    @mem_verbatim as, ← or_assoc, or_comm]

theorem mem_verbatim_plain_cons {a : PlainAttribute} {as : List Attribute} {x : String × Pool} :
    x ∈ verbatim (plain a :: as) ↔ x ∈ verbatimHere [plain a] ∨ x ∈ verbatim as := by
  have hHere : verbatimHere (plain a :: as) = verbatimHere [plain a] ++ verbatimHere as := by
    cases a <;> rfl
  rw [mem_verbatim, hHere, verbatimInside, List.mem_append, @mem_verbatim as, or_assoc]

/-- All attributes of `as` that are kept as bytes have the pool `P`. -/
def Uniform (P : Pool) (as : List Attribute) : Prop := ∀ x ∈ verbatim as, x.2 = P

theorem uniform_code_cons {body : Code Attribute} {as : List Attribute} :
    Uniform P (code body :: as) ↔ Uniform P body.attributes ∧ Uniform P as := by
  simp only [Uniform, mem_verbatim_code_cons, or_imp, forall_and]

theorem uniform_record_cons {cs : List (RecordComponent Attribute)} {as : List Attribute} :
    Uniform P (record cs :: as) ↔ (∀ c ∈ cs, Uniform P c.attributes) ∧ Uniform P as := by
  simp only [Uniform, mem_verbatim_record_cons, or_imp, forall_and, forall_exists_index, and_imp]
  constructor
  · rintro ⟨hComponents, hRest⟩
    exact ⟨fun c hc x hx => hComponents x c hc hx, hRest⟩
  · rintro ⟨hComponents, hRest⟩
    exact ⟨fun x c hc hx => hComponents c hc x hx, hRest⟩

theorem uniform_plain_cons {a : PlainAttribute} {as : List Attribute} :
    Uniform P (plain a :: as) ↔ a.withPool P = a ∧ Uniform P as := by
  have hHere : (∀ x ∈ verbatimHere [plain a], x.2 = P) ↔ a.withPool P = a := by
    cases a with
    | unknown name payload pool => simp [verbatimHere, PlainAttribute.withPool, eq_comm]
    | _ => simp [verbatimHere, PlainAttribute.withPool]
  rw [← hHere]
  simp only [Uniform, mem_verbatim_plain_cons, or_imp, forall_and]

mutual

theorem withPoolEach_eq_self_iff (as : List Attribute) :
    withPoolEach P as = as ↔ Uniform P as := by
  cases as with
  | nil => simp [withPoolEach, Uniform, verbatim, verbatimHere, verbatimInside]
  | cons a as =>
    cases a with
    | code body =>
      obtain ⟨maxStack, maxLocals, instructions, handlers, attributes⟩ := body
      rw [uniform_code_cons, withPoolEach, withPool, List.cons.injEq,
        withPoolEach_eq_self_iff as, ← withPoolEach_eq_self_iff attributes]
      simp
    | record cs =>
      rw [uniform_record_cons, withPoolEach, withPool, List.cons.injEq,
        withPoolEach_eq_self_iff as, ← withPoolComponents_eq_self_iff cs]
      simp
    | plain a =>
      rw [uniform_plain_cons, withPoolEach, withPool, List.cons.injEq,
        withPoolEach_eq_self_iff as]
      simp

theorem withPoolComponents_eq_self_iff (cs : List (RecordComponent Attribute)) :
    withPoolComponents P cs = cs ↔ ∀ c ∈ cs, Uniform P c.attributes := by
  cases cs with
  | nil => simp [withPoolComponents]
  | cons c cs =>
    obtain ⟨name, descriptor, attributes⟩ := c
    rw [withPoolComponents, List.cons.injEq, withPoolComponents_eq_self_iff cs,
      List.forall_mem_cons, ← withPoolEach_eq_self_iff attributes]
    simp

end

end Attribute

end Renaming
