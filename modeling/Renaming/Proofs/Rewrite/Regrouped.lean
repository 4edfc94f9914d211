import Renaming.Proofs.Rewrite.Run

/-!
# Groups that give the same names

What a renamer needs its groups for are the new names of methods, and which classes have a cycle. Two
ways of numbering the same groups therefore rewrite a class in the same way.
-/

namespace Renaming

def Site.regrouped (s : Site) (g : OverrideGroups) : Site :=
  { s with renamer := { s.renamer with groups := g } }

namespace Site

variable {s : Site} {g : OverrideGroups}

/-- The groups `g` give methods the names that they have at the site. -/
abbrev NamedBy (s : Site) (g : OverrideGroups) : Prop :=
  (s.regrouped g).renamer.newMethod? = s.renamer.newMethod?

theorem methodName_regrouped (hg : s.NamedBy g) : (s.regrouped g).methodName = s.methodName := by
  funext key
  rw [methodName, methodName, hg]
  rfl

theorem memberRef_regrouped (hg : s.NamedBy g) : (s.regrouped g).memberRef = s.memberRef := by
  funext r
  rw [memberRef, memberRef, methodName_regrouped hg]
  rfl

theorem constant_regrouped (hg : s.NamedBy g) : (s.regrouped g).constant = s.constant := by
  funext c
  cases c with
  | member r | methodHandle kind r =>
    rw [constant, constant, memberRef_regrouped hg]
  | _ => rfl

theorem callSite_regrouped (hg : s.NamedBy g) : (s.regrouped g).callSite = s.callSite := by
  funext bootstrap v
  rw [callSite, callSite, methodName_regrouped hg]
  rfl

theorem operand_regrouped (hg : s.NamedBy g) : (s.regrouped g).operand = s.operand := by
  funext o
  cases o with
  | constant c => rw [operand, operand, constant_regrouped hg]
  | member r | invokeInterface r count => rw [operand, operand, memberRef_regrouped hg]
  | invokeDynamic bootstrap v => rw [operand, operand, callSite_regrouped hg]
  | _ => rfl

theorem instruction_regrouped (hg : s.NamedBy g) : (s.regrouped g).instruction = s.instruction := by
  funext i
  rw [instruction, instruction, operand_regrouped hg]

theorem enclosingMethod_regrouped (hg : s.NamedBy g) :
    (s.regrouped g).enclosingMethod = s.enclosingMethod := by
  funext owner m
  rw [enclosingMethod, enclosingMethod, methodName_regrouped hg]
  rfl

theorem bootstrapMethod_regrouped (hg : s.NamedBy g) :
    (s.regrouped g).bootstrapMethod = s.bootstrapMethod := by
  funext m
  rw [bootstrapMethod, bootstrapMethod, constant_regrouped hg]

theorem elementName_regrouped (hg : s.NamedBy g) : (s.regrouped g).elementName = s.elementName := by
  funext type name
  rw [elementName, elementName, methodName_regrouped hg]
  rfl

mutual

theorem elementValue_regrouped (hg : s.NamedBy g) (v : ElementValue) :
    (s.regrouped g).elementValue v = s.elementValue v := by
  cases v with
  | const tag value => rw [elementValue, elementValue]
  | enum type name =>
    rw [elementValue, elementValue]
    rfl
  | classLiteral text =>
    rw [elementValue, elementValue]
    rfl
  | nested type elements =>
    rw [elementValue, elementValue, elementValues_regrouped hg (objectType? type) elements]
    rfl
  | array values => rw [elementValue, elementValue, arrayValues_regrouped hg values]

theorem elementValues_regrouped (hg : s.NamedBy g) (type : Option String)
    (elements : List (String × ElementValue)) :
    (s.regrouped g).elementValues type elements = s.elementValues type elements := by
  cases elements with
  | nil => rw [elementValues, elementValues]
  | cons element rest =>
    obtain ⟨name, value⟩ := element
    rw [elementValues.eq_def, elementValues.eq_def]
    dsimp only
    rw [elementName_regrouped hg, elementValue_regrouped hg value,
      elementValues_regrouped hg type rest]

theorem arrayValues_regrouped (hg : s.NamedBy g) (values : List ElementValue) :
    (s.regrouped g).arrayValues values = s.arrayValues values := by
  cases values with
  | nil => rw [arrayValues, arrayValues]
  | cons value rest =>
    rw [arrayValues, arrayValues, elementValue_regrouped hg value, arrayValues_regrouped hg rest]

end

theorem annotated_regrouped (hg : s.NamedBy g) : (s.regrouped g).annotated = s.annotated := by
  funext a
  rw [annotated, annotated, elementValues_regrouped hg]
  rfl

theorem plainAttribute_regrouped (hg : s.NamedBy g) (kind : SignatureKind) (a : PlainAttribute) :
    (s.regrouped g).plainAttribute kind a = s.plainAttribute kind a := by
  cases a with
  | enclosingMethod owner method =>
    rw [plainAttribute, plainAttribute, enclosingMethod_regrouped hg]
    rfl
  | annotations visibility as =>
    rw [plainAttribute, plainAttribute, annotated_regrouped hg]
  | parameterAnnotations visibility parameters =>
    rw [plainAttribute, plainAttribute, annotated_regrouped hg]
  | typeAnnotations visibility as =>
    rw [plainAttribute, plainAttribute, annotated_regrouped hg]
  | annotationDefault value =>
    rw [plainAttribute, plainAttribute, elementValue_regrouped hg]
  | bootstrapMethods methods =>
    rw [plainAttribute, plainAttribute, bootstrapMethod_regrouped hg]
  | _ => rfl

mutual

theorem rewriteAttribute_regrouped (hg : s.NamedBy g) (kind : SignatureKind) (a : Attribute) :
    (s.regrouped g).rewriteAttribute kind a = s.rewriteAttribute kind a := by
  cases a with
  | code body =>
    obtain ⟨maxStack, maxLocals, instructions, handlers, attributes⟩ := body
    rw [rewriteAttribute, rewriteAttribute, instruction_regrouped hg,
      rewriteAttributes_regrouped hg .ofField attributes]
    rfl
  | record components =>
    rw [rewriteAttribute, rewriteAttribute, rewriteComponents_regrouped hg components]
  | plain a => rw [rewriteAttribute, rewriteAttribute, plainAttribute_regrouped hg]

theorem rewriteAttributes_regrouped (hg : s.NamedBy g) (kind : SignatureKind) (as : List Attribute) :
    (s.regrouped g).rewriteAttributes kind as = s.rewriteAttributes kind as := by
  cases as with
  | nil => rw [rewriteAttributes, rewriteAttributes]
  | cons a rest =>
    rw [rewriteAttributes, rewriteAttributes, rewriteAttribute_regrouped hg kind a,
      rewriteAttributes_regrouped hg kind rest]

theorem rewriteComponents_regrouped (hg : s.NamedBy g)
    (components : List (RecordComponent Attribute)) :
    (s.regrouped g).rewriteComponents components = s.rewriteComponents components := by
  cases components with
  | nil => rw [rewriteComponents, rewriteComponents]
  | cons component rest =>
    obtain ⟨name, descriptor, attributes⟩ := component
    rw [rewriteComponents, rewriteComponents, rewriteAttributes_regrouped hg .ofField attributes,
      rewriteComponents_regrouped hg rest]
    rfl

end

theorem field_regrouped (hg : s.NamedBy g) (m : Member) : (s.regrouped g).field m = s.field m := by
  rw [field, field, rewriteAttributes_regrouped hg]
  rfl

theorem method_regrouped (hg : s.NamedBy g) (m : Member) : (s.regrouped g).method m = s.method m := by
  rw [method, method, rewriteAttributes_regrouped hg, hg]
  rfl

theorem rewriteClass_regrouped (hg : s.NamedBy g) (c : ClassModel) :
    (s.regrouped g).rewriteClass c = s.rewriteClass c := by
  have hField : ∀ m, ((s.regrouped g).atMember .field m).field m =
      (s.atMember .field m).field m := fun m => field_regrouped (s := s.atMember .field m) hg m
  have hMethod : ∀ m, ((s.regrouped g).atMember .method m).method m =
      (s.atMember .method m).method m := fun m => method_regrouped (s := s.atMember .method m) hg m
  rw [rewriteClass, rewriteClass]
  simp only [hField, hMethod, rewriteAttribute_regrouped hg]
  rfl

end Site

namespace Renamer

/-- The renamers may differ in how their groups are numbered, but not in what these are used for. -/
structure Alike (r r' : Renamer) : Prop where
  table_eq : r'.table = r.table
  rebuildSourceFile_eq : r'.rebuildSourceFile = r.rebuildSourceFile
  newMethod?_eq : r'.newMethod? = r.newMethod?
  cyclic_eq : ∀ name : String, r'.groups.cyclic[name]? = r.groups.cyclic[name]?

variable {r r' : Renamer}

theorem Alike.rewrite_eq (hr : r.Alike r') (c : ClassModel) : r'.rewrite c = r.rewrite c := by
  obtain ⟨t', g', rebuild'⟩ := r'
  obtain ⟨rfl, rfl, hNames, hCyclic⟩ := hr
  funext h
  rw [rewrite, rewrite, hCyclic]
  cases r.groups.cyclic[c.name]? with
  | some through => rfl
  | none =>
    have hClass : Site.rewriteClass ⟨⟨r.table, g', r.rebuildSourceFile⟩, c.name,
        c.bootstrapMethods, c.name⟩ c = (r.siteOf c).rewriteClass c :=
      Site.rewriteClass_regrouped (s := r.siteOf c) hNames c
    dsimp only
    rw [hClass, siteOf]

end Renamer

end Renaming
