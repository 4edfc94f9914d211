import Renaming.Proofs.ClassFile.Repaid.Class

/-!
# What the writer is made of

Every part of the writer is put together from few steps: it asks for a constant or sets a slot aside
for one, loads the constant of an `ldc` instruction, or fails. What holds of these steps, and of two
steps in a row if it holds of each, holds of the whole writer. So for every class model, well-formed
or not, the reasons to fail are few, and the pool only grows.
-/

namespace Renaming

open Encoder (Emits)

/-- An instruction is not written where it was read, or an operand does not fit its byte. -/
def WriteError.IsMisfit : WriteError → Prop
  | instructionOffset .. | operandOutOfRange _ => True
  | _ => False

def WriteError.IsOverflow : WriteError → Prop
  | poolOverflow | stringTooLong _ | tooManyEntries _ => True
  | _ => False

/-- Everything in `L` is known, with an index of one byte. -/
def PoolBuilder.Reaches (b : PoolBuilder) (L : Constant → Prop) : Prop :=
  ∀ c, L c → ∃ i, b.index[c]? = some i ∧ i.toNat ≤ 255

theorem PoolBuilder.Grows.reaches {K L : Constant → Prop} {b b' : PoolBuilder}
    (h : Grows K b b') (hb : b.Reaches L) : b'.Reaches L :=
  fun c hc => (hb c hc).imp fun i hi => ⟨h.index c i hi.1, hi.2⟩

namespace Encoder

variable {α β : Type} {E : WriteError → Prop} {L : Constant → Prop} {x : Encoder α}

/-- If the step of the writer fails, then with one of the errors `E`. -/
def Raises (E : WriteError → Prop) (x : Encoder α) : Prop := ∀ b e, x b = .error e → E e

namespace Raises

theorem pure {a : α} : Raises E (Pure.pure a) := fun _ _ h => nomatch h

theorem throw {e : WriteError} (he : E e) : Raises E (MonadExcept.throw e : Encoder α) := by
  intro b e' h
  cases h
  exact he

theorem bind {f : α → Encoder β} (hx : Raises E x) (hf : ∀ a, Raises E (f a)) :
    Raises E (x >>= f) := by
  intro b e h
  rcases Stateful.bind_eq_error.mp h with hFirst | ⟨a, b', -, hSecond⟩
  · exact hx b e hFirst
  · exact hf a b' e hSecond

theorem guarded {p : Prop} [Decidable p] {e : WriteError} (he : E e) (hx : Raises E x) :
    Raises E (if p then MonadExcept.throw e else x) := by
  split
  · exact throw he
  · exact hx

end Raises

section Constants

open PoolBuilder

theorem raises_claim (c : Constant) : Raises (·.IsOverflow) (claim c) := by
  intro b e h
  change (if b.entries.size + (if c.isWide then 2 else 1) > 65534 then _ else _) = _ at h
  by_cases hFull : b.entries.size + (if c.isWide then 2 else 1) > 65534
  · rw [if_pos hFull] at h
    cases h
    trivial
  · rw [if_neg hFull] at h
    cases h

theorem raises_reserve (c : Constant) : Raises (·.IsOverflow) (reserve c) := by
  refine Raises.bind (fun _ _ h => nomatch h) fun b => ?_
  split
  · exact .pure
  · exact raises_claim c

theorem raises_intern {c : Constant} {make : Encoder PoolEntry} (h : Raises (·.IsOverflow) make) :
    Raises (·.IsOverflow) (intern c make) := by
  have hGet : Raises (·.IsOverflow) (get : Encoder PoolBuilder) := fun _ _ h => nomatch h
  have hFill : ∀ i entry, Raises (·.IsOverflow) (fill i entry) := fun _ _ _ _ h => nomatch h
  refine hGet.bind fun b => ?_
  dsimp only
  split
  · refine hGet.bind fun b' => ?_
    split
    · exact .pure
    · exact h.bind fun entry => (hFill _ entry).bind fun _ => .pure
  · exact h.bind fun entry => (raises_claim c).bind fun i => (hFill i entry).bind fun _ => .pure

theorem raises_constant (c : Constant) : Raises (·.IsOverflow) (constant c) :=
  constant_induction (M := fun x => Raises (·.IsOverflow) x) (fun _ => .pure) .bind
    (fun _ => .throw trivial) (fun d h => constant_eq_intern d ▸ raises_intern h) c

theorem eq_of_constant {c : Constant} {b b' : PoolBuilder} {i j : UInt16}
    (hKnown : b.index[c]? = some i) (hRun : constant c b = .ok (j, b')) : j = i := by
  rw [constant_eq_intern] at hRun
  cases intern_eq_ok.mp hRun with
  | filled hIndex | reserved hIndex => exact Option.some.inj (hIndex.symm.trans hKnown)
  | new hIndex => exact absurd (hIndex.symm.trans hKnown) nofun

end Constants

/-- The step of the writer is made of steps for constants and of failures. The errors `E` stand for
those that a well-formed class is free of, and `L` has the constants that are loaded by `ldc`. -/
inductive Built (E : WriteError → Prop) (L : Constant → Prop) : {α : Type} → Encoder α → Prop
  | pure {α : Type} {a : α} : Built E L (Pure.pure a)
  /-- The second step only has to be made so for what the first one can yield. -/
  | step {α β : Type} {x : Encoder α} {f : α → Encoder β} (hx : Built E L x)
      (hf : ∀ a, (∃ b b', x b = .ok (a, b')) → Built E L (f a)) : Built E L (x >>= f)
  | constant (c : Constant) : Built E L (PoolBuilder.constant c)
  | reserve (c : Constant) : Built E L (PoolBuilder.reserve c)
  | load {α : Type} {c : Constant} {f : UInt16 → Encoder α} (hc : L c)
      (hf : ∀ i, Built E L (f i)) : Built E L do
        let i ← PoolBuilder.constant c
        if i > 255 then throw (.ldcIndexOverflow i) else f i
  | crowded {α : Type} (table : String) : Built E L (throw (.tooManyEntries table) : Encoder α)
  | refuse {α : Type} {e : WriteError} (he : E e) : Built E L (throw e : Encoder α)

namespace Built

theorem bind {f : α → Encoder β} (hx : Built E L x) (hf : ∀ a, Built E L (f a)) :
    Built E L (x >>= f) := .step hx fun a _ => hf a

theorem map {g : α → β} (hx : Built E L x) : Built E L (g <$> x) := by
  rw [map_eq_pure_bind]
  exact hx.bind fun _ => .pure

theorem unlessCrowded {p : Prop} [Decidable p] {table : String} (hx : Built E L x) :
    Built E L (if p then throw (.tooManyEntries table) else x) := by
  split
  · exact .crowded table
  · exact hx

theorem unlessRefused {p : Prop} [Decidable p] {e : WriteError} (he : p → E e)
    (hx : Built E L x) : Built E L (if p then throw e else x) := by
  split
  · rename_i hp
    exact .refuse (he hp)
  · exact hx

theorem raises (h : Built E L x) :
    Raises (fun e => E e ∨ e.IsOverflow ∨ ∃ i, e = .ldcIndexOverflow i) x := by
  induction h with
  | pure => exact .pure
  | step _ _ ihx ihf =>
    intro b e hFails
    rcases Stateful.bind_eq_error.mp hFails with hFirst | ⟨a, b', hFirst, hSecond⟩
    · exact ihx b e hFirst
    · exact ihf a ⟨b, b', hFirst⟩ b' e hSecond
  | constant c => exact fun b e h => Or.inr (Or.inl (raises_constant c b e h))
  | reserve c => exact fun b e h => Or.inr (Or.inl (raises_reserve c b e h))
  | @load _ c f _ _ ih =>
    refine Raises.bind (fun b e h => Or.inr (Or.inl (raises_constant c b e h))) fun i => ?_
    exact .guarded (Or.inr (Or.inr ⟨i, rfl⟩)) (ih i)
  | crowded table => exact .throw (Or.inr (Or.inl trivial))
  | refuse he => exact .throw (Or.inl he)

/-- Whatever is written, the pool stays sound and only grows. -/
theorem emits (h : Built E L x) : Emits (fun _ => True) x fun _ _ => True := by
  have hConstant (c : Constant) : Emits (fun _ => True) (PoolBuilder.constant c) fun _ _ => True :=
    (emits_constant Constant.closed_univ trivial).imp fun _ _ _ => trivial
  induction h with
  | pure => exact .pure fun _ => trivial
  | step _ _ ihx ihf =>
    intro b hb c b'' hRun
    obtain ⟨a, b', hFirst, hSecond⟩ := Stateful.bind_eq_ok.mp hRun
    obtain ⟨hb', hGrows, -⟩ := ihx b hb a b' hFirst
    obtain ⟨hb'', hGrows', -⟩ := ihf a ⟨b, b', hFirst⟩ b' hb' c b'' hSecond
    exact ⟨hb'', hGrows.trans hGrows', fun _ _ => trivial⟩
  | constant c => exact hConstant c
  | reserve c => exact emits_reserve.mono fun _ _ => trivial
  | @load _ c f _ _ ih =>
    exact (hConstant c).bind fun i => .guarded fun _ => (ih i).imp fun _ _ _ _ => trivial
  | crowded | refuse => exact .throw

/-- If what is loaded has an index of one byte, then it is not for such an index that the writer
fails. -/
theorem loads (h : Built E L x) (hE : ∀ i, ¬ E (.ldcIndexOverflow i)) {b : PoolBuilder}
    (hb : b.Sound) (hReaches : b.Reaches L) (i : UInt16) : x b ≠ .error (.ldcIndexOverflow i) := by
  induction h generalizing b with
  | pure => exact nofun
  | constant c => exact raises_constant c b _
  | reserve c => exact raises_reserve c b _
  | crowded table => exact nofun
  | refuse he =>
    intro hFails
    cases hFails
    exact hE i he
  | @step _ _ x f hx _ ihx ihf =>
    intro hFails
    rcases Stateful.bind_eq_error.mp hFails with hFirst | ⟨a, b', hFirst, hSecond⟩
    · exact ihx hb hReaches hFirst
    · obtain ⟨hb', hGrows, -⟩ := hx.emits b hb a b' hFirst
      exact ihf a ⟨b, b', hFirst⟩ hb' (hGrows.reaches hReaches) hSecond
  | @load _ c f hc _ ih =>
    intro hFails
    rcases Stateful.bind_eq_error.mp hFails with hFirst | ⟨j, b', hFirst, hSecond⟩
    · exact raises_constant c b _ hFirst
    · obtain ⟨k, hk, hByte⟩ := hReaches c hc
      obtain rfl := eq_of_constant hk hFirst
      have hFits : ¬ j > 255 := Nat.not_lt.mpr hByte
      rw [if_neg hFits] at hSecond
      obtain ⟨hb', hGrows, -⟩ := (constant (E := E) (L := L) c).emits b hb j b' hFirst
      exact ih j hb' (hGrows.reaches hReaches) hSecond

end Built

open PoolBuilder

theorem built_utf8 (value : String) : Built E L (utf8 value) := .constant (.utf8 value)

theorem built_className (name : String) : Built E L (className name) := .constant (.classRef name)

theorem built_moduleName (name : String) : Built E L (moduleName name) := .constant (.module name)

theorem built_packageName (name : String) : Built E L (packageName name) :=
  .constant (.package name)

theorem built_nameAndType (value : NameAndType) : Built E L (PoolBuilder.nameAndType value) :=
  .constant (.nameAndType value)

theorem built_memberRef (r : MemberRef) : Built E L (memberRef r) := .constant (.member r)

theorem built_index {index : Encoder UInt16} (h : Built E L index) :
    Built E L (Encoder.index index) := h.map

theorem built_optional {γ : Type} {index : γ → Encoder UInt16} (h : ∀ a, Built E L (index a))
    (o : Option γ) : Built E L (optional index o) := by
  cases o with
  | none => exact .pure
  | some a => exact h a

theorem built_reserveAll (cs : List Constant) : Built E L (reserveAll cs) := by
  induction cs with
  | nil => exact .pure
  | cons c cs ih =>
    rw [reserveAll, List.forIn_cons]
    refine ((Built.reserve c).bind fun _ => .pure).bind fun r => ?_
    cases r with
    | yield _ => exact ih
    | done _ => exact .pure

theorem built_length2 {γ : Type} {table : String} {as : List γ} :
    Built E L (length2 table as) := .unlessCrowded .pure

theorem built_length1 {γ : Type} {table : String} {as : List γ} :
    Built E L (length1 table as) := .unlessCrowded .pure

section Tables

variable {γ : Type} {table : String} {item : γ → Encoder Bytes} {as : List γ}
  (h : ∀ a ∈ as, Built E L (item a))

include h

theorem built_mapM : Built E L (as.mapM item) := by
  induction as with
  | nil => exact .pure
  | cons a as ih =>
    obtain ⟨hHead, hTail⟩ := List.forall_mem_cons.mp h
    rw [List.mapM_cons]
    exact hHead.bind fun _ => (ih hTail).bind fun _ => .pure

theorem built_each : Built E L (each item as) := (built_mapM h).bind fun _ => .pure

theorem built_list : Built E L (list table item as) :=
  built_length2.bind fun _ => (built_each h).bind fun _ => .pure

theorem built_shortList : Built E L (shortList table item as) :=
  built_length1.bind fun _ => (built_each h).bind fun _ => .pure

end Tables

theorem built_classes (table : String) (names : List String) :
    Built E L (Encoder.classes table names) :=
  built_list fun name _ => built_index (built_className name)

end Encoder

open Encoder (Built built_utf8 built_className built_moduleName built_packageName
  built_nameAndType built_memberRef built_index built_optional built_reserveAll built_length2
  built_each built_list built_shortList built_classes)

variable {E : WriteError → Prop} {L : Constant → Prop}

namespace Instruction

/-- What an instruction needs in order to be `Built`: a place and a width that fit, or leave to fail
without, and a constant of `L` if it loads one. -/
theorem built_encode {i : Instruction} (hNarrow : (∀ e, WriteError.IsMisfit e → E e) ∨ i.operand.Narrow)
    (hLoads : ∀ c, i.Loads c → L c) : Built E L i.encode := by
  obtain ⟨offset, op, o⟩ := i
  have hRefuse : ∀ {text : String}, ¬ o.Narrow → E (.operandOutOfRange text) :=
    fun hWide => hNarrow.elim (fun hE => hE _ trivial) fun hNarrow => absurd hNarrow hWide
  cases o with
  | none | byte | short | arrayType | jump | jumpWide | tableSwitch | lookupSwitch => exact .pure
  | localVar index wide =>
    cases wide with
    | true => exact .pure
    | false =>
      refine .unlessRefused (fun hWide => hRefuse ?_) .pure
      exact Nat.not_le.mpr hWide
  | increment index delta wide =>
    cases wide with
    | true => exact .pure
    | false =>
      refine .unlessRefused (fun hWide => hRefuse ?_) .pure
      rintro ⟨hIndex, hLow, hHigh⟩
      revert hWide
      simp only [Bool.or_eq_true, decide_eq_true_eq, imp_false, not_or, gt_iff_lt,
        UInt16.lt_iff_toNat_lt, Int16.lt_iff_toInt_lt]
      exact ⟨⟨Nat.not_lt.mpr hIndex, Int.not_lt.mpr hLow⟩, Int.not_lt.mpr hHigh⟩
  | constant value =>
    by_cases hLdc : op = opLdc
    · subst hLdc
      exact .load (hLoads value ⟨rfl, rfl⟩) fun _ => .pure
    · refine (Built.constant value).bind fun index => ?_
      rw [if_neg hLdc]
      exact .pure
  | member r => exact (built_memberRef r).bind fun _ => .pure
  | invokeInterface r count => exact (built_memberRef r).bind fun _ => .pure
  | invokeDynamic bootstrap callSite => exact (Built.constant _).bind fun _ => .pure
  | classRef name => exact (built_className name).bind fun _ => .pure
  | multiArray name dimensions => exact (built_className name).bind fun _ => .pure

theorem built_encodeFrom {offset : Nat} {is : List Instruction}
    (hPlaced : (∀ e, WriteError.IsMisfit e → E e) ∨ Laid offset is)
    (hLoads : ∀ i ∈ is, ∀ c, i.Loads c → L c) (pieces : List Bytes) :
    Built E L (encodeFrom offset pieces is) := by
  induction is generalizing offset pieces with
  | nil => exact .pure
  | cons i is ih =>
    obtain ⟨hHead, hTail⟩ := List.forall_mem_cons.mp hLoads
    have hHere : i.offset.toNat ≠ offset → E (.instructionOffset i.offset offset) :=
      fun hElsewhere => hPlaced.elim (fun hE => hE _ trivial) fun hLaid => absurd hLaid.1 hElsewhere
    refine .unlessRefused hHere (.step ?_ ?_)
    · exact built_encode (hPlaced.imp_right fun hLaid => hLaid.2.1) hHead
    · rintro bytes ⟨b, b', hRun⟩
      -- An instruction is as long as its size says, so that the next one is in place too.
      rw [length_of_encode hRun]
      exact ih (hPlaced.imp_right fun hLaid => hLaid.2.2) hTail _

theorem built_encodeAll {is : List Instruction}
    (hPlaced : (∀ e, WriteError.IsMisfit e → E e) ∨ Laid 0 is)
    (hLoads : ∀ i ∈ is, ∀ c, i.Loads c → L c) : Built E L (encodeAll is) :=
  built_encodeFrom hPlaced hLoads []

end Instruction


theorem ExceptionHandler.built_encode (h : ExceptionHandler) : Built E L h.encode :=
  (built_optional built_className h.caught).bind fun _ => .pure

theorem VerificationType.built_encode (v : VerificationType) : Built E L v.encode := by
  cases v with
  | object name => exact (built_className name).bind fun _ => .pure
  | _ => exact .pure

theorem StackMapFrame.built_encode (f : StackMapFrame) : Built E L f.encode := by
  cases f with
  | sameOne tag stack => exact stack.built_encode.bind fun _ => .pure
  | sameOneExtended delta stack => exact stack.built_encode.bind fun _ => .pure
  | append tag delta types =>
    exact (built_each fun v _ => v.built_encode).bind fun _ => .pure
  | full delta types stack =>
    exact (built_list fun v _ => v.built_encode).bind fun _ =>
      (built_list fun v _ => v.built_encode).bind fun _ => .pure
  | _ => exact .pure

theorem InnerClass.built_encode (c : InnerClass) : Built E L c.encode :=
  (built_className c.inner).bind fun _ => (built_optional built_className c.outer).bind
    fun _ => (built_optional built_utf8 c.name).bind fun _ => .pure

theorem LocalVariable.built_encode (v : LocalVariable) : Built E L v.encode :=
  (built_utf8 v.name).bind fun _ => (built_utf8 v.descriptor).bind fun _ => .pure

namespace ElementValue

mutual

theorem built_encode (v : ElementValue) : Built E L v.encode := by
  cases v with
  | const tag value =>
    rw [encode]
    exact (Built.constant value).bind fun _ => .pure
  | enum type name =>
    rw [encode]
    exact (built_utf8 type).bind fun _ => (built_utf8 name).bind fun _ => .pure
  | classLiteral descriptor =>
    rw [encode]
    exact (built_utf8 descriptor).bind fun _ => .pure
  | nested type elements =>
    rw [encode]
    exact (built_utf8 type).bind fun _ => built_length2.bind fun _ =>
      (built_encodeElements elements).bind fun _ => .pure
  | array values =>
    rw [encode]
    exact built_length2.bind fun _ => (built_encodeValues values).bind fun _ => .pure

theorem built_encodeElements (elements : List (String × ElementValue)) :
    Built E L (encodeElements elements) := by
  cases elements with
  | nil =>
    rw [encodeElements]
    exact .pure
  | cons element rest =>
    obtain ⟨name, value⟩ := element
    rw [encodeElements]
    exact (built_utf8 name).bind fun _ => (built_encode value).bind fun _ =>
      (built_encodeElements rest).bind fun _ => .pure

theorem built_encodeValues (values : List ElementValue) : Built E L (encodeValues values) := by
  cases values with
  | nil =>
    rw [encodeValues]
    exact .pure
  | cons value rest =>
    rw [encodeValues]
    exact (built_encode value).bind fun _ => (built_encodeValues rest).bind fun _ => .pure

end

end ElementValue

theorem Annotation.built_encode (a : Annotation) : Built E L a.encode :=
  (built_utf8 a.type).bind fun _ => built_length2.bind fun _ =>
    (ElementValue.built_encodeElements a.elements).bind fun _ => .pure

theorem TypeAnnotation.built_encode (a : TypeAnnotation) : Built E L a.encode :=
  a.annotation.built_encode.bind fun _ => .pure

theorem BootstrapMethod.built_encode (m : BootstrapMethod) : Built E L m.encode :=
  (Built.constant m.method).bind fun _ =>
    (built_list fun c _ => built_index (Built.constant c)).bind fun _ => .pure

theorem MethodParameter.built_encode (p : MethodParameter) : Built E L p.encode :=
  (built_optional built_utf8 p.name).bind fun _ => .pure

theorem ModuleRequire.built_encode (r : ModuleRequire) : Built E L r.encode :=
  (built_moduleName r.module).bind fun _ => (built_optional built_utf8 r.version).bind
    fun _ => .pure

theorem ModuleExport.built_encode (table : String) (e : ModuleExport) :
    Built E L (e.encode table) :=
  (built_packageName e.package).bind fun _ =>
    (built_list fun name _ => built_index (built_moduleName name)).bind fun _ => .pure

theorem ModuleProvide.built_encode (p : ModuleProvide) : Built E L p.encode :=
  (built_className p.service).bind fun _ => (built_classes _ _).bind fun _ => .pure

theorem ModuleInfo.built_encode (m : ModuleInfo) : Built E L m.encode :=
  (built_moduleName m.name).bind fun _ => (built_optional built_utf8 m.version).bind
    fun _ => (built_list fun r _ => r.built_encode).bind
    fun _ => (built_list fun e _ => e.built_encode _).bind
    fun _ => (built_list fun e _ => e.built_encode _).bind
    fun _ => (built_classes _ _).bind
    fun _ => (built_list fun p _ => p.built_encode).bind fun _ => .pure

theorem PlainAttribute.built_encode (a : PlainAttribute) : Built E L a.encode := by
  cases a with
  | constantValue value => exact built_index (Built.constant value)
  | stackMapTable frames => exact built_list fun f _ => f.built_encode
  | exceptions classes | nestMembers classes | permittedSubclasses classes =>
    exact built_classes _ classes
  | innerClasses entries => exact built_list fun c _ => c.built_encode
  | enclosingMethod owner method =>
    exact (built_className owner).bind fun _ =>
      (built_optional built_nameAndType method).bind fun _ => .pure
  | signature text | sourceFile text => exact built_index (built_utf8 text)
  | lineNumbers lines => exact built_list fun _ _ => .pure
  | localVariables entries | localVariableTypes entries =>
    exact built_list fun v _ => v.built_encode
  | annotations visibility as => exact built_list fun a _ => a.built_encode
  | parameterAnnotations visibility parameters =>
    exact built_shortList fun as _ => built_list fun a _ => a.built_encode
  | typeAnnotations visibility as => exact built_list fun a _ => a.built_encode
  | annotationDefault value => exact value.built_encode
  | bootstrapMethods methods => exact built_list fun m _ => m.built_encode
  | methodParameters parameters => exact built_shortList fun p _ => p.built_encode
  | nestHost name | moduleMainClass name => exact built_index (built_className name)
  | moduleInfo info => exact info.built_encode
  | modulePackages packages =>
    exact built_list fun name _ => built_index (built_packageName name)
  | synthetic | deprecated | unknown => exact .pure

namespace Attribute

mutual

/-- The method bodies in the attribute, each before those inside of it. -/
def bodies : Attribute → List (Code Attribute)
  | code ⟨maxStack, maxLocals, instructions, handlers, attributes⟩ =>
    ⟨maxStack, maxLocals, instructions, handlers, attributes⟩ :: bodiesOfEach attributes
  | record components => bodiesOfComponents components
  | plain _ => []

def bodiesOfEach : List Attribute → List (Code Attribute)
  | [] => []
  | a :: rest => a.bodies ++ bodiesOfEach rest

def bodiesOfComponents : List (RecordComponent Attribute) → List (Code Attribute)
  | [] => []
  | ⟨_, _, attributes⟩ :: rest => bodiesOfEach attributes ++ bodiesOfComponents rest

end

theorem mem_bodiesOfEach {as : List Attribute} {body : Code Attribute} :
    body ∈ bodiesOfEach as ↔ ∃ a ∈ as, body ∈ a.bodies := by
  induction as with
  | nil => simp [bodiesOfEach]
  | cons a as ih => simp [bodiesOfEach, ih]

theorem mem_bodiesOfComponents {cs : List (RecordComponent Attribute)} {body : Code Attribute} :
    body ∈ bodiesOfComponents cs ↔ ∃ c ∈ cs, ∃ a ∈ c.attributes, body ∈ a.bodies := by
  induction cs with
  | nil => simp [bodiesOfComponents]
  | cons c cs ih =>
    obtain ⟨name, descriptor, attributes⟩ := c
    simp [bodiesOfComponents, mem_bodiesOfEach, ih]

end Attribute

/-- The instructions of the body lie one behind the other. -/
def Code.InPlace (body : Code Attribute) : Prop := Instruction.Laid 0 body.instructions

/-- What a method body needs in order to be `Built`, as for a single instruction. -/
structure Code.Admitted (E : WriteError → Prop) (L : Constant → Prop) (body : Code Attribute) :
    Prop where
  placed : (∀ e, WriteError.IsMisfit e → E e) ∨ body.InPlace
  loads : ∀ i ∈ body.instructions, ∀ c, i.Loads c → L c

theorem Code.admitted (body : Code Attribute) : body.Admitted WriteError.IsMisfit fun _ => True :=
  ⟨Or.inl fun _ he => he, fun _ _ _ _ => trivial⟩

namespace Attribute

theorem built_frame (name : UInt16) (payload : Bytes) : Built E L (frame name payload) :=
  .unlessCrowded .pure

mutual

theorem built_encode (a : Attribute) (h : ∀ body ∈ a.bodies, body.Admitted E L) :
    Built E L a.encode := by
  cases a with
  | code body =>
    obtain ⟨maxStack, maxLocals, instructions, handlers, attributes⟩ := body
    rw [bodies, List.forall_mem_cons] at h
    rw [encode]
    refine (built_utf8 _).bind fun name => (Instruction.built_encodeAll h.1.placed h.1.loads).bind
      fun bytecode => .unlessCrowded ?_
    exact (built_list fun handler _ => handler.built_encode).bind fun _ =>
      built_length2.bind fun _ => (built_encodeEach attributes h.2).bind fun _ =>
      built_frame _ _
  | record components =>
    rw [encode]
    exact (built_utf8 _).bind fun name => built_length2.bind fun _ =>
      (built_encodeComponents components h).bind fun _ => built_frame _ _
  | plain a =>
    rw [encode]
    exact (built_utf8 _).bind fun name => a.built_encode.bind fun _ => built_frame _ _

theorem built_encodeEach (as : List Attribute) (h : ∀ body ∈ bodiesOfEach as, body.Admitted E L) :
    Built E L (encodeEach as) := by
  cases as with
  | nil =>
    rw [encodeEach]
    exact .pure
  | cons a rest =>
    rw [bodiesOfEach, List.forall_mem_append] at h
    rw [encodeEach]
    exact (built_encode a h.1).bind fun _ => (built_encodeEach rest h.2).bind fun _ => .pure

theorem built_encodeComponents (cs : List (RecordComponent Attribute))
    (h : ∀ body ∈ bodiesOfComponents cs, body.Admitted E L) : Built E L (encodeComponents cs) := by
  cases cs with
  | nil =>
    rw [encodeComponents]
    exact .pure
  | cons c rest =>
    obtain ⟨name, descriptor, attributes⟩ := c
    rw [bodiesOfComponents, List.forall_mem_append] at h
    rw [encodeComponents]
    exact (built_utf8 name).bind fun _ => (built_utf8 descriptor).bind fun _ =>
      built_length2.bind fun _ => (built_encodeEach attributes h.1).bind fun _ =>
      (built_encodeComponents rest h.2).bind fun _ => .pure

end

theorem built_encodeList {as : List Attribute}
    (h : ∀ body ∈ bodiesOfEach as, body.Admitted E L) : Built E L (encodeList as) :=
  built_length2.bind fun _ => (built_encodeEach as h).bind fun _ => .pure

end Attribute

theorem Member.built_encode {m : Member}
    (h : ∀ body ∈ Attribute.bodiesOfEach m.attributes, body.Admitted E L) : Built E L m.encode :=
  (built_utf8 m.name).bind fun _ => (built_utf8 m.descriptor).bind fun _ =>
    (Attribute.built_encodeList h).bind fun _ => .pure

namespace ClassModel

/-- All method bodies of a class: of the fields, which should have none, of the methods and of the
class. -/
def bodies (c : ClassModel) : List (Code Attribute) :=
  (c.fields ++ c.methods).flatMap (fun m => Attribute.bodiesOfEach m.attributes) ++
    Attribute.bodiesOfEach c.attributes

theorem built_encodeParts {c : ClassModel} (h : ∀ body ∈ c.bodies, body.Admitted E L) :
    Built E L c.encodeParts := by
  rw [bodies, List.forall_mem_append] at h
  obtain ⟨hMembers, hAttributes⟩ := h
  have hMember : ∀ m ∈ c.fields ++ c.methods, Built E L m.encode := fun m hm =>
    Member.built_encode fun body hBody => hMembers body (List.mem_flatMap.mpr ⟨m, hm, hBody⟩)
  obtain ⟨hFields, hMethods⟩ := List.forall_mem_append.mp hMember
  exact (built_className c.name).bind
    fun _ => (built_optional built_className c.superName).bind
    fun _ => (built_classes _ _).bind fun _ => (built_list hFields).bind
    fun _ => (built_list hMethods).bind
    fun _ => (Attribute.built_encodeList hAttributes).bind fun _ => .pure

theorem built_encodeBody {c : ClassModel} (h : ∀ body ∈ c.bodies, body.Admitted E L) :
    Built E L c.encodeBody :=
  (built_reserveAll c.ldcConstants).bind fun _ => built_encodeParts h

theorem eq_unfilledSlot_of_encode {b : PoolBuilder} {e : WriteError} (h : b.encode = .error e) :
    e = .unfilledSlot := by
  rcases Outcome.bind_eq_error.mp h with hEntries | ⟨_, -, hDone⟩
  · obtain ⟨entry, -, hEntry⟩ := Outcome.exists_of_mapM_eq_error hEntries
    cases entry with
    | none =>
      cases hEntry
      rfl
    | some entry => cases hEntry
  · cases hDone

theorem serialize_eq_error {c : ClassModel} {e : WriteError} (h : c.serialize = .error e) :
    c.verbatimPool = .error e ∨ e = .unfilledSlot ∨ ∃ pool, c.verbatimPool = .ok pool ∧
      c.encodeBody (pool.elim PoolBuilder.empty PoolBuilder.ofPool) = .error e := by
  rcases Outcome.bind_eq_error.mp h with hPool | ⟨pool, hPool, h⟩
  · exact Or.inl hPool
  rcases Outcome.bind_eq_error.mp h with hBody | ⟨⟨body, b⟩, -, h⟩
  · exact Or.inr (Or.inr ⟨pool, hPool, hBody⟩)
  rcases Outcome.bind_eq_error.mp h with hEncode | ⟨_, -, hDone⟩
  · exact Or.inr (Or.inl (eq_unfilledSlot_of_encode hEncode))
  · cases hDone

theorem exists_mixedPools_of_verbatimPool {c : ClassModel} {e : WriteError}
    (h : c.verbatimPool = .error e) : ∃ name, e = .mixedPools name := by
  unfold verbatimPool at h
  split at h
  · cases h
  · split at h
    · cases h
      exact ⟨_, rfl⟩
    · cases h

end ClassModel

end Renaming
