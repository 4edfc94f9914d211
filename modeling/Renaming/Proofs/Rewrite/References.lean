import Renaming.Proofs.OverrideGroups.Partition
import Renaming.Proofs.RenameTable.Answers
import Renaming.Proofs.Rewrite.CleanRun

/-!
# What references mean after rewriting

A reference to a method gets the new name of the declaration that it means, and is then looked up in
the rewritten classes. It means the same declaration again unless a class that is searched earlier
has come to declare a method of that name: only the methods of one class are kept apart.

Only the input classes are renamed. A class of the class path goes on naming the supertypes that it was
compiled against, and an input class may get a name that was missing before. Either can take away what
a reference means, so both are excluded.
-/

namespace Renaming

open Effectful Hierarchy

def Mention.member? : Mention → Option MemberRef
  | member r => some r
  | _ => none

/-- The references to members in a class, in order: in its code and in its bootstrap methods. -/
def ClassModel.memberReferences (c : ClassModel) : List MemberRef :=
  c.mentions.filterMap Mention.member?

theorem Site.Corresponds.members {s : Site} {debug : Prop} {M : MemberRef → MemberRef → Prop}
    {as bs : List Mention} (h : s.Corresponds debug M as bs) :
    List.Forall₂ M (as.filterMap Mention.member?) (bs.filterMap Mention.member?) := by
  induction h with
  | nil => exact .nil
  | cons hHead _ ih =>
    cases hHead with
    | member h => exact .cons h ih
    | _ => exact ih

theorem exists_mem_of_forall₂ {α β : Type} {R : α → β → Prop} {as : List α} {bs : List β}
    (h : List.Forall₂ R as bs) {a : α} (ha : a ∈ as) : ∃ b ∈ bs, R a b := by
  induction h with
  | nil => exact absurd ha List.not_mem_nil
  | cons hHead _ ih =>
    rcases List.mem_cons.mp ha with rfl | ha
    · exact ⟨_, List.mem_cons_self, hHead⟩
    · obtain ⟨b, hb, hab⟩ := ih ha
      exact ⟨b, List.mem_cons_of_mem _ hb, hab⟩

/-- The class whose declaration a reference means, asked of a hierarchy in which nothing but the
given classes was put. -/
def meaning (classpath : ClassPath) (config : Config) (classes : List ClassModel)
    (reference : MemberRef) : Except Failure (Option ClassModel) :=
  ((methodOwner reference.key).run (seeded classpath config classes)).1

/-- The reference `a` is looked for in some classes and then in `d`. After rewriting `b` means the
first class, in the same order, that has come to declare it; this is `d'`, which `d` is rewritten to,
exactly if no class before it has. -/
def Renamer.MeansFirst (r : Renamer) (classpath : ClassPath) (config : Config)
    (inputs outputs : List ClassModel) (a b : MemberRef) (d d' : ClassModel) : Prop :=
  ∃ before after,
    (seeded classpath config inputs).view.LookupOrder a.owner (before ++ d.name :: after) ∧
    meaning classpath config outputs b = .ok ((seeded classpath config outputs).view.firstDeclaring
      ((before ++ [d.name]).map r.className) b.name b.descriptor) ∧
    (meaning classpath config outputs b = .ok (some d') ↔
      ∀ x ∈ before, ∀ e, (seeded classpath config outputs).view (r.className x) = some e →
        e.declares b.name b.descriptor = false)

theorem Hierarchy.Answers.meaning {classpath : ClassPath} {classes : List ClassModel} {a : MemberRef}
    {owner : Option ClassModel} (h : Answers (seeded classpath Config.standard classes).view
      (methodOwner a.key) owner) :
    Renaming.meaning classpath Config.standard classes a = .ok owner := by
  have hSeeded := fits_seeded classpath classes (rfl : Config.standard.failOnUnresolved = false)
  obtain ⟨h', hAsk, -⟩ := h _ hSeeded.coherent hSeeded.lenient rfl
  rw [Renaming.meaning, hAsk]

namespace Renamer.CleanRun

variable {mappings : String} {classpath : ClassPath} {config : Config} {r : Renamer}
  {inputs outputs : List ClassModel}

theorem references (hRun : CleanRun mappings classpath config r inputs outputs) {c c' : ClassModel}
    (h : (c, c') ∈ inputs.zip outputs) :
    List.Forall₂ (r.ReferenceRenamed (seeded classpath config inputs).view) c.memberReferences
      c'.memberReferences :=
  (hRun.rewritten_of_mem h).mentions.members

theorem declares_of_renamed (hRun : CleanRun mappings classpath config r inputs outputs)
    {d d' : ClassModel} (h : (d, d') ∈ inputs.zip outputs) {a : MemberRef} {name descriptor : String}
    (hDeclares : d.declares a.name a.descriptor = true)
    (hName : name = (r.newMethod? { a.key with owner := d.name }).getD a.name)
    (hDescriptor : Descriptor.rename r.table.newClass? a.descriptor = .ok descriptor) :
    d'.declares name descriptor = true := by
  rw [ClassModel.declares, ClassModel.findMethod, List.find?_isSome] at hDeclares
  obtain ⟨m, hm, hNamed⟩ := hDeclares
  rw [Member.isNamed, Bool.and_eq_true, decide_eq_true_eq, decide_eq_true_eq] at hNamed
  obtain ⟨m', hm', hRewritten⟩ := exists_mem_of_forall₂ (hRun.rewritten_of_mem h).methods hm
  have hNewName : m'.name = name := by
    rw [hRewritten.name, hName, hNamed.1, hNamed.2]
    rfl
  have hNewDescriptor : m'.descriptor = descriptor := by
    have hOk := hRewritten.descriptor
    rw [hNamed.2] at hOk
    exact Except.ok.inj (hOk.symm.trans hDescriptor)
  rw [ClassModel.declares, ClassModel.findMethod, List.find?_isSome]
  refine ⟨m', hm', ?_⟩
  rw [Member.isNamed, hNewName, hNewDescriptor, decide_eq_true rfl, decide_eq_true rfl]
  rfl

theorem meaning_eq (hRun : CleanRun mappings classpath config r inputs outputs) {a b : MemberRef}
    (hOwner : Descriptor.renameReference r.table.newClass? a.owner = .ok b.owner)
    (hArray : Text.startsWith '[' a.owner = false)
    (hUndisturbed : r.Undisturbed (seeded classpath config inputs).view inputs a.owner)
    {order : List String} (hGrounded : (seeded classpath config inputs).view.Grounded a.owner)
    (hOrder : (seeded classpath config inputs).view.LookupOrder a.owner order) :
    meaning classpath config outputs b = .ok ((seeded classpath config outputs).view.firstDeclaring
      (order.map r.className) b.name b.descriptor) := by
  obtain ⟨as, line, hAncestors, hLine, rfl⟩ := hOrder
  have hCarries := hRun.carries hUndisturbed hAncestors
  have hNewOwner : b.owner = r.className a.owner := by
    rw [Descriptor.renameReference, hArray, if_neg Bool.false_ne_true] at hOwner
    exact (Except.ok.inj hOwner).symm
  have hNewGrounded := hGrounded.carry hAncestors hCarries
  have hNewOrder := View.LookupOrder.map ⟨as, line, hAncestors, hLine, rfl⟩ hAncestors hCarries
  rw [← hNewOwner] at hNewGrounded hNewOrder
  have hNew := fits_seeded classpath outputs hRun.lenient
  have hAnswer : Answers (seeded classpath config outputs).view (methodOwner b.key) _ :=
    answers_methodOwner hNewGrounded hNewOrder
  obtain ⟨h', hAsk, -⟩ := hAnswer _ hNew.coherent hNew.lenient rfl
  rw [meaning, hAsk]
  rfl

theorem meansFirst_of_renamed (hRun : CleanRun mappings classpath config r inputs outputs)
    {a b : MemberRef} (hRenamed : r.ReferenceRenamed (seeded classpath config inputs).view a b)
    (hKind : a.kind ≠ .field) (hArray : Text.startsWith '[' a.owner = false)
    (hReserved : Text.startsWith '<' a.name = false) {d d' : ClassModel}
    (hPair : (d, d') ∈ inputs.zip outputs)
    (hMeaning : meaning classpath config inputs a = .ok (some d))
    (hUndisturbed : r.Undisturbed (seeded classpath config inputs).view inputs a.owner) :
    r.MeansFirst classpath config inputs outputs a b d d' := by
  have hOld := fits_seeded classpath inputs hRun.lenient
  have hNew := fits_seeded classpath outputs hRun.lenient
  rcases methodOwner_spec hOld.coherent hOld.lenient a.key with
    ⟨order, h', hGrounded, hOrder, hAsk, -⟩ | ⟨through, h', hAsk, -⟩
  · rw [meaning, hAsk, Except.ok.injEq] at hMeaning
    obtain ⟨before, x, after, rfl, hFound, hDeclares, hBefore⟩ :=
      View.firstDeclaring_eq_some hMeaning
    obtain rfl : d.name = x := hOld.coherent.name_of_view hFound
    have hName : Text.startsWith '[' d.name = false := by
      by_contra hArray'
      rw [view_of_array _ (by simpa using hArray')] at hFound
      cases hFound
    have hAfter := hRun.view_output hPair hName
    have hDeclares' : d'.declares b.name b.descriptor = true :=
      hRun.declares_of_renamed hPair hDeclares
        (hRenamed.name hKind hArray hReserved _ d hGrounded hOrder hMeaning) hRenamed.descriptor
    have hNewMeaning := hRun.meaning_eq hRenamed.owner hArray hUndisturbed hGrounded hOrder
    rw [List.map_append, List.map_cons, View.firstDeclaring_append_cons hAfter hDeclares']
      at hNewMeaning
    -- Renaming tells apart the classes that are searched, so the rewriting of `d` does not come up before
    -- its place.
    have hOther : ∀ y ∈ before.map r.className,
        (seeded classpath config outputs).view y ≠ some d' := by
      intro y hy hSame
      obtain ⟨x, hx, rfl⟩ := List.mem_map.mp hy
      obtain ⟨as, -, hAncestors, -⟩ := id hOrder
      have hSubset := hOrder.subset hAncestors
      have hNames : r.className x = r.className d.name :=
        (hNew.coherent.name_of_view hSame).symm.trans (hNew.coherent.name_of_view hAfter)
      have hEq := hRun.className_inj hUndisturbed hAncestors
        (hSubset x (List.mem_append_left _ hx))
        (hSubset d.name (List.mem_append_right _ List.mem_cons_self)) hNames
      have hNot := hBefore x hx d (hEq ▸ hFound)
      rw [hDeclares] at hNot
      cases hNot
    refine ⟨before, after, hOrder, ?_, ?_⟩
    · rw [hNewMeaning, List.map_append, List.map_singleton]
    · rw [hNewMeaning, Except.ok.injEq, View.firstDeclaring_eq_last_iff hAfter hDeclares' hOther,
        List.forall_mem_map]
  · rw [meaning, hAsk] at hMeaning
    cases hMeaning

/-- A method reference that means a declaration of an input class means the rewriting of that class
afterwards, unless a class that is searched earlier has come to declare a method of the new name and
descriptor. -/
theorem meaning_of_references (hRun : CleanRun mappings classpath config r inputs outputs)
    {c c' : ClassModel} (h : (c, c') ∈ inputs.zip outputs) :
    List.Forall₂ (fun a b : MemberRef => a.kind ≠ .field → Text.startsWith '[' a.owner = false →
      Text.startsWith '<' a.name = false → ∀ d d', (d, d') ∈ inputs.zip outputs →
        meaning classpath config inputs a = .ok (some d) →
          r.Undisturbed (seeded classpath config inputs).view inputs a.owner →
            r.MeansFirst classpath config inputs outputs a b d d')
      c.memberReferences c'.memberReferences :=
  (hRun.references h).imp fun _ _ hRenamed hKind hArray hReserved _ _ hPair hMeaning hUndisturbed =>
    meansFirst_of_renamed hRun hRenamed hKind hArray hReserved hPair hMeaning hUndisturbed

end Renamer.CleanRun

section Runs

variable {h h' : Hierarchy}

theorem Site.methodName_run {s : Site} {key : MemberKey} {c : ClassModel} {ds : List Diagnostic}
    (hReserved : (Text.startsWith '[' key.owner || Text.startsWith '<' key.name) = false)
    (hAsk : (methodOwner key).run h = (.ok (some c), h')) : (s.methodName key).run ⟨h, ds⟩ =
      (.ok ((s.renamer.newMethod? { key with owner := c.name }).getD key.name), ⟨h', ds⟩) := by
  have hStep : (Rewriting.askDeclaration (methodOwner key)).run ⟨h, ds⟩ =
      (.ok (some c), ⟨h', ds⟩) := by
    change Rewriting.askDeclaration (methodOwner key) ⟨h, ds⟩ = _
    rw [Rewriting.askDeclaration, hAsk]
  rw [methodName, hReserved, if_neg Bool.false_ne_true, bind_run_of_ok hStep]
  rfl

theorem Site.memberRef_run {s : Site} {a : MemberRef} {c : ClassModel} {ds : List Diagnostic}
    {descriptor : String} (hKind : a.kind = .method)
    (hReserved : (Text.startsWith '[' a.owner || Text.startsWith '<' a.name) = false)
    (hAsk : (methodOwner a.key).run h = (.ok (some c), h'))
    (hDescriptor : Descriptor.rename s.renamer.table.newClass? a.descriptor = .ok descriptor) :
    (s.memberRef a).run ⟨h, ds⟩ = (.ok ⟨.method, s.renamer.className a.owner,
      (s.renamer.newMethod? { a.key with owner := c.name }).getD a.name, descriptor⟩, ⟨h', ds⟩) := by
  obtain ⟨hArray, -⟩ := Bool.or_eq_false_iff.mp hReserved
  have hName : (s.methodName ⟨a.owner, a.name, a.descriptor⟩).run ⟨h, ds⟩ = _ :=
    Site.methodName_run hReserved hAsk
  have hOwner : (s.classReference a.owner).run ⟨h', ds⟩ =
      (.ok (s.renamer.className a.owner), ⟨h', ds⟩) := by
    rw [Site.classReference, Descriptor.renameReference, hArray, if_neg Bool.false_ne_true]
    rfl
  have hType : (s.descriptor a.descriptor).run ⟨h', ds⟩ = (.ok descriptor, ⟨h', ds⟩) := by
    rw [Site.descriptor, hDescriptor]
    rfl
  rw [Site.memberRef, hKind]
  dsimp only
  rw [bind_run_of_ok hName, bind_run_of_ok hOwner, bind_run_of_ok hType]
  rfl

theorem Site.method_run {s : Site} {m : Member} {name descriptor : String} {as : List Attribute}
    {st st' : RewriteState}
    (hName : (s.renamer.newMethod? ⟨s.owner, m.name, m.descriptor⟩).getD m.name = name)
    (hDescriptor : Descriptor.rename s.renamer.table.newClass? m.descriptor = .ok descriptor)
    (hAttributes : (s.rewriteAttributes .ofMethod m.attributes).run st = (.ok as, st')) :
    (s.method m).run st = (.ok ⟨m.access, name, descriptor, as⟩, st') := by
  have hStep : (s.descriptor m.descriptor).run st = (.ok descriptor, st) := by
    rw [Site.descriptor, hDescriptor]
    rfl
  rw [Site.method, hName, bind_run_of_ok hStep, bind_run_of_ok hAttributes]
  rfl

theorem Renamer.rewrite_run {r : Renamer} {c : ClassModel} {m m' : Member}
    (hCyclic : r.groups.cyclic[c.name]? = none) (hFields : c.fields = [])
    (hMethods : c.methods = [m]) (hAttributes : c.attributes = [])
    (hMethod : (((r.siteOf c).atMember .method m).method m).run ⟨h, []⟩ = (.ok m', ⟨h', []⟩)) :
    (r.rewrite c).run h = (.ok ⟨{ c with
      name := r.className c.name
      superName := c.superName.map r.className
      interfaces := c.interfaces.map r.className
      methods := [m'] }, []⟩, h') := by
  have hOne : (Rewriting.orKeep m (((r.siteOf c).atMember .method m).method m)).run ⟨h, []⟩ =
      (.ok m', ⟨h', []⟩) := tryCatch_run.mpr (Or.inl ⟨m', hMethod, rfl⟩)
  have hRun : ((r.siteOf c).rewriteClass c).run ⟨h, []⟩ = (.ok { c with
      name := r.className c.name
      superName := c.superName.map r.className
      interfaces := c.interfaces.map r.className
      methods := [m'] }, ⟨h', []⟩) := by
    rw [Site.rewriteClass, hFields, hMethods, hAttributes, List.mapM_nil, List.mapM_cons,
      List.mapM_nil, List.mapM_nil, pure_bind, bind_assoc, bind_run_of_ok hOne]
    rfl
  exact rewrite_eq_ok.mpr ⟨hCyclic, [], hRun, rfl⟩

end Runs

namespace Capture

/-- The class `A`, with a method of the given name. The class `B` below it declares `n`, and calls the method
of `A` as one of its own. -/
def upper (method : String) : ClassModel :=
  ⟨0, 52, 0x21, "A", none, [], [], [⟨1, method, "()V", []⟩], []⟩

def call (method : String) : Instruction := ⟨1, 0xb6, .member ⟨.method, "B", method, "()V"⟩⟩

def calling (method : String) : Member :=
  ⟨1, "n", "()V", [.code ⟨1, 1, [⟨0, 0x2a, .none⟩, call method, ⟨4, 0xb1, .none⟩], [], []⟩]⟩

def caller (method : String) : ClassModel :=
  ⟨0, 52, 0x21, "B", some "A", [], [], [calling method], []⟩

def upperFile : Bytes :=
  [202, 254, 186, 190, 0, 0, 0, 52, 0, 5, 1, 0, 1, 65, 7, 0, 1, 1, 0, 1, 109, 1, 0, 3, 40, 41, 86,
    0, 33, 0, 2, 0, 0, 0, 0, 0, 0, 0, 1, 0, 1, 0, 3, 0, 4, 0, 0, 0, 0]

def callerFile : Bytes :=
  [202, 254, 186, 190, 0, 0, 0, 52, 0, 11, 1, 0, 1, 66, 7, 0, 1, 1, 0, 1, 65, 7, 0, 3, 1, 0, 1, 110,
    1, 0, 3, 40, 41, 86, 1, 0, 4, 67, 111, 100, 101, 1, 0, 1, 109, 12, 0, 8, 0, 6, 10, 0, 2, 0, 9,
    0, 33, 0, 2, 0, 4, 0, 0, 0, 0, 0, 1, 0, 1, 0, 5, 0, 6, 0, 1, 0, 7, 0, 0, 0, 17, 0, 1, 0, 1, 0, 0,
    0, 5, 42, 182, 0, 10, 177, 0, 0, 0, 0, 0, 0]

theorem parse_upperFile : ClassModel.parse upperFile = .ok (upper "m") := by rfl

theorem parse_callerFile : ClassModel.parse callerFile = .ok (caller "m") := by rfl

def mappings : String := "method A.m ()V n"

def above : MemberKey := ⟨"A", "m", "()V"⟩

def below : MemberKey := ⟨"B", "n", "()V"⟩

/-- What the mapping file says. -/
structure Renames (t : RenameTable) : Prop where
  parse_eq : RenameTable.parse mappings = .ok t
  newClass?_eq : ∀ name, t.newClass? name = none
  newField?_eq : ∀ key, t.newField? key = none
  newMethod?_eq : ∀ key, t.newMethod? key = if above = key then some "n" else none

theorem Renames.above_eq {t : RenameTable} (ht : Renames t) : t.newMethod? above = some "n" :=
  (ht.newMethod?_eq above).trans (if_pos rfl)

theorem Renames.below_eq {t : RenameTable} (ht : Renames t) : t.newMethod? below = none :=
  (ht.newMethod?_eq below).trans (if_neg (by decide))

theorem exists_table : ∃ t, Renames t := by
  refine ⟨⟨.empty, .empty, OrderedMap.empty.push above "n"⟩, ?_, ?_, ?_, ?_⟩
  · have hColumns : Text.words (Text.beforeFirst '#' mappings) = ["method", "A.m", "()V", "n"] := by
      rfl
    have hEntry : RenameTable.Entry.parse ["method", "A.m", "()V", "n"] =
        .ok (.ofMethod above "n") := by rfl
    have hLine : RenameTable.addLine .empty (mappings, 1) =
        .ok ⟨.empty, .empty, OrderedMap.empty.push above "n"⟩ := by
      rw [RenameTable.addLine, hColumns]
      dsimp only
      rw [hEntry]
      dsimp only
      rw [RenameTable.add, RenameTable.addMethod, RenameTable.addEntry, RenameTable.empty]
      dsimp only
      rw [OrderedMap.find?_empty]
      rfl
    have hLines : (Text.lines mappings).zipIdx 1 = [(mappings, 1)] := by rfl
    rw [RenameTable.parse, hLines, List.foldlM_cons, hLine]
    simp [RenameTable.validate, firstClash?, firstClashFrom, OrderedMap.toList, OrderedMap.empty,
      OrderedMap.push]
    rfl
  · simp [RenameTable.newClass?]
  · simp [RenameTable.newField?]
  · simp [RenameTable.newMethod?, OrderedMap.find?_push]

theorem order (m m' : String) : (seeded ⟨[]⟩ Config.standard [upper m, caller m']).view "A" =
      some (upper m) ∧
    (seeded ⟨[]⟩ Config.standard [upper m, caller m']).view "B" = some (caller m') ∧
    (seeded ⟨[]⟩ Config.standard [upper m, caller m']).view.Grounded "B" ∧
    (seeded ⟨[]⟩ Config.standard [upper m, caller m']).view.Ancestors "B" ["A"] ∧
    (seeded ⟨[]⟩ Config.standard [upper m, caller m']).view.LookupOrder "B" ["B", "A"] := by
  have hDistinct : ([upper m, caller m'].map ClassModel.name).Nodup := by
    simp [upper, caller]
  have hUpper : (seeded ⟨[]⟩ Config.standard [upper m, caller m']).view (upper m).name =
      some (upper m) :=
    view_seeded_of_mem hDistinct (by simp) (by decide : Text.startsWith '[' "A" = false)
  have hCaller : (seeded ⟨[]⟩ Config.standard [upper m, caller m']).view (caller m').name =
      some (caller m') :=
    view_seeded_of_mem hDistinct (by simp) (by decide : Text.startsWith '[' "B" = false)
  exact ⟨hUpper, hCaller, View.lookupOrder_of_parent hCaller hUpper rfl rfl rfl rfl
    (by decide : AccessFlags.isInterface 0x21 = false)⟩

theorem answers_call : Answers (seeded ⟨[]⟩ Config.standard [upper "m", caller "m"]).view
    (methodOwner ⟨"B", "m", "()V"⟩) (some (upper "m")) := by
  obtain ⟨hUpper, hCaller, hGrounded, -, hOrder⟩ := order "m" "m"
  have hFirst : (seeded ⟨[]⟩ Config.standard [upper "m", caller "m"]).view.firstDeclaring ["B", "A"]
      "m" "()V" = some (upper "m") := by
    rw [View.firstDeclaring_cons hCaller, View.firstDeclaring_cons hUpper]
    rfl
  rw [← hFirst]
  exact answers_methodOwner hGrounded hOrder

theorem answers_captured : Answers (seeded ⟨[]⟩ Config.standard [upper "n", caller "n"]).view
    (methodOwner ⟨"B", "n", "()V"⟩) (some (caller "n")) := by
  obtain ⟨-, hCaller, hGrounded, -, hOrder⟩ := order "n" "n"
  have hFirst : (seeded ⟨[]⟩ Config.standard [upper "n", caller "n"]).view.firstDeclaring ["B", "A"]
      "n" "()V" = some (caller "n") := by
    rw [View.firstDeclaring_cons hCaller]
    rfl
  rw [← hFirst]
  exact answers_methodOwner hGrounded hOrder

/-- What is known of the renamer that is built. -/
structure Known (r : Renamer) : Prop where
  table : Renames r.table
  acyclic : r.groups.cyclic = ∅
  above_eq : r.newMethod? above = some "n"
  below_eq : r.newMethod? below = none

def builder : OverrideGroups.Builder :=
  (OverrideGroups.Builder.empty.addAll ∅ [⟨above, false⟩]).addAll ∅ [⟨below, false⟩, ⟨above, false⟩]

theorem Renames.exists_groups {t : RenameTable} (ht : Renames t) : ∃ g,
    builder.finish t = .ok g ∧ g.cyclic = ∅ ∧ g.newMethod? t above = some "n" ∧
      g.newMethod? t below = none := by
  have hBuilder : builder = ⟨(Std.HashMap.insert ∅ above 0).insert below 1, #[above, below],
      DisjointSet.empty.push.2.push.2, ∅⟩ := by
    simp [builder, OverrideGroups.Builder.addAll, OverrideGroups.Builder.number,
      OverrideGroups.Builder.empty, above, below]
    rfl
  have hRoots : DisjointSet.empty.push.2.push.2.roots = #[0, 1] := by decide
  refine ⟨_, by
    rw [OverrideGroups.Builder.finish, hBuilder, hRoots]
    simp [OverrideGroups.Builder.addName, ht.above_eq, ht.below_eq]
    rfl, ?_⟩
  simp [OverrideGroups.newMethod?, OverrideGroups.groupOf?, below, above, Std.HashMap.getElem_insert]

variable {r : Renamer}

theorem Known.className_eq (hr : Known r) (name : String) : r.className name = name := by
  simp [Renamer.className, ClassRenaming.apply, hr.table.newClass?_eq]

theorem Known.memberRef_run (hr : Known r) {h h' : Hierarchy}
    (hAsk : (methodOwner ⟨"B", "m", "()V"⟩).run h = (.ok (some (upper "m")), h')) {s : Site}
    (hs : s.renamer = r) : (s.memberRef ⟨.method, "B", "m", "()V"⟩).run ⟨h, []⟩ =
      (.ok ⟨.method, "B", "n", "()V"⟩, ⟨h', []⟩) := by
  subst hs
  have hName : (s.renamer.newMethod? above).getD "m" = "n" := by
    rw [hr.above_eq]
    rfl
  have hDescriptor : Descriptor.rename s.renamer.table.newClass? "()V" = .ok "()V" := rfl
  have hRun : (s.memberRef ⟨.method, "B", "m", "()V"⟩).run ⟨h, []⟩ = _ :=
    Site.memberRef_run rfl (by decide) hAsk hDescriptor
  rw [hr.className_eq] at hRun
  exact hName ▸ hRun

theorem Known.rewrite_upper (hr : Known r) (h : Hierarchy) :
    (r.rewrite (upper "m")).run h = (.ok ⟨upper "n", []⟩, h) := by
  have hName : (r.newMethod? above).getD "m" = "n" := by
    rw [hr.above_eq]
    rfl
  have hMethod : (((r.siteOf (upper "m")).atMember .method ⟨1, "m", "()V", []⟩).method
      ⟨1, "m", "()V", []⟩).run ⟨h, []⟩ = (.ok ⟨1, "n", "()V", []⟩, ⟨h, []⟩) :=
    Site.method_run hName rfl rfl
  rw [Renamer.rewrite_run (by rw [hr.acyclic]; simp) rfl rfl rfl hMethod]
  simp [hr.className_eq, upper]

theorem Known.rewrite_caller (hr : Known r) {h h' : Hierarchy}
    (hAsk : (methodOwner ⟨"B", "m", "()V"⟩).run h = (.ok (some (upper "m")), h')) :
    (r.rewrite (caller "m")).run h = (.ok ⟨caller "n", []⟩, h') := by
  have hName : (r.newMethod? below).getD "n" = "n" := by
    rw [hr.below_eq]
    rfl
  have hInstructions : ∀ s : Site, s.renamer = r →
      ([⟨0, 0x2a, .none⟩, call "m", ⟨4, 0xb1, .none⟩].mapM s.instruction).run ⟨h, []⟩ =
        (.ok [⟨0, 0x2a, .none⟩, call "n", ⟨4, 0xb1, .none⟩], ⟨h', []⟩) := by
    intro s hs
    have hFirst : (s.instruction ⟨0, 0x2a, .none⟩).run ⟨h, []⟩ =
        (.ok ⟨0, 0x2a, .none⟩, ⟨h, []⟩) := rfl
    have hCall : (s.instruction (call "m")).run ⟨h, []⟩ = (.ok (call "n"), ⟨h', []⟩) := by
      rw [Site.instruction, call, Site.operand, bind_assoc, bind_run_of_ok (hr.memberRef_run hAsk hs)]
      rfl
    rw [List.mapM_cons, bind_run_of_ok hFirst, List.mapM_cons, bind_assoc, bind_run_of_ok hCall]
    rfl
  have hBody : ∀ s : Site, s.renamer = r →
      (s.rewriteAttributes .ofMethod (calling "m").attributes).run ⟨h, []⟩ =
        (.ok (calling "n").attributes, ⟨h', []⟩) := by
    intro s hs
    simp only [calling, Site.rewriteAttributes, Site.rewriteAttribute]
    rw [bind_assoc, bind_run_of_ok (hInstructions s hs)]
    rfl
  have hMethod : (((r.siteOf (caller "m")).atMember .method (calling "m")).method
      (calling "m")).run ⟨h, []⟩ = (.ok (calling "n"), ⟨h', []⟩) :=
    Site.method_run hName rfl (hBody _ rfl)
  rw [Renamer.rewrite_run (by rw [hr.acyclic]; simp) rfl rfl rfl hMethod]
  simp [hr.className_eq, caller]

theorem Known.checkClasses_eq (hr : Known r) (h : Hierarchy) :
    r.checkClasses h (Std.HashSet.ofList ([upper "m", caller "m"].map ClassModel.name)).contains ∅
      [upper "m", caller "m"] = .ok () := by
  have hMembers : ∀ c m, c.fields = [] → c.methods = [m] → r.checkMembers c = .ok () := by
    intro c m hFields hMethods
    have hNone : firstClash? (r.fieldTarget c.name) [] = none := rfl
    have hOne : firstClash? (r.methodTarget c.name) [m] = none := by
      simp [firstClash?, firstClashFrom]
    rw [Renamer.checkMembers, hFields, hMethods, hNone, hOne]
    rfl
  have hUpper := hMembers (upper "m") _ rfl rfl
  have hCaller := hMembers (caller "m") _ rfl rfl
  have hNames : (upper "m").name = "A" ∧ (caller "m").name = "B" := ⟨rfl, rfl⟩
  simp [Renamer.checkClasses, hr.className_eq, hUpper, hCaller, hNames]

def start : Hierarchy := seeded ⟨[]⟩ Config.standard [upper "m", caller "m"]

theorem exists_renamer : ∃ r h', (Renamer.build r.table [upper "m", caller "m"]
    Config.standard).run start = (.ok r, h') ∧ Known r := by
  obtain ⟨t, ht⟩ := exists_table
  obtain ⟨hUpper, hCaller, hGrounded, hAncestors, -⟩ := order "m" "m"
  have hStart : start.Fits start.view := fits_seeded ⟨[]⟩ [upper "m", caller "m"] rfl
  have hTop : start.view.parents "A" = [] := View.parents_of_some hUpper
  obtain ⟨hTopGrounded, hTopAncestors⟩ := View.ancestors_of_top hTop
  obtain ⟨h₁, hFirst, hExtends₁, -⟩ := OverrideGroups.Builder.addClass_run (c := upper "m")
    hStart.coherent hStart.lenient .empty hTopGrounded hTopAncestors
  obtain ⟨h₂, hSecond, hExtends₂⟩ : ∃ h', ((OverrideGroups.Builder.empty.addAll ∅
      [⟨above, false⟩]).addClass (caller "m")).run h₁ = (.ok builder, h') ∧ h₁.Extends h' := by
    have hSame := hExtends₁.view_eq
    obtain ⟨h', hAdd, hExtends, -⟩ := OverrideGroups.Builder.addClass_run (c := caller "m")
      hExtends₁.coherent (hExtends₁.strict_eq.trans hStart.lenient)
      (OverrideGroups.Builder.empty.addAll ∅ [⟨above, false⟩]) (hSame ▸ hGrounded) (hSame ▸ hAncestors)
    refine ⟨h', ?_, hExtends⟩
    have hDeclarations : OverrideGroups.declarationsAbove start.view (caller "m") ["A"] =
        [⟨below, false⟩, ⟨above, false⟩] := by
      have hTop' : start.view "A" = some (upper "m") := hUpper
      rw [OverrideGroups.declarationsAbove, List.filterMap_cons_some hTop']
      rfl
    rw [hAdd, hSame, hDeclarations]
    rfl
  obtain ⟨g, hFinish, hCyclic, hAbove, hBelow⟩ := ht.exists_groups
  have hGroups : (OverrideGroups.build t [upper "m", caller "m"]).run start = (.ok g, h₂) := by
    have hTop : OverrideGroups.declarationsAbove start.view (upper "m") [] = [⟨above, false⟩] := rfl
    rw [hTop] at hFirst
    rw [OverrideGroups.build, List.foldlM_cons, bind_assoc, bind_run_of_ok hFirst, List.foldlM_cons,
      bind_assoc, bind_run_of_ok hSecond, List.foldlM_nil, pure_bind, hFinish]
    rfl
  have hr : Known ⟨t, g, Config.standard.rebuildSourceFile⟩ := ⟨ht, hCyclic, hAbove, hBelow⟩
  refine ⟨_, h₂, ?_, hr⟩
  rw [Renamer.build, bind_run_of_ok hGroups, get_bind_run, Renamer.distinctFrom_eq_self
    (fun _ _ => Std.HashSet.not_mem_empty) (by simp [upper, caller])]
  rw [hr.checkClasses_eq h₂]
  rfl

theorem exists_rewrite_caller : ∃ r h₁ h₂, (Renamer.build r.table [upper "m", caller "m"]
    Config.standard).run start = (.ok r, h₁) ∧ Known r ∧
      (r.rewrite (caller "m")).run h₁ = (.ok ⟨caller "n", []⟩, h₂) := by
  obtain ⟨r, h₁, hBuild, hr⟩ := exists_renamer
  have hStart : start.Fits start.view := fits_seeded ⟨[]⟩ [upper "m", caller "m"] rfl
  have hDistinct : ([upper "m", caller "m"].map ClassModel.name).Nodup := by
    simp [upper, caller]
  obtain ⟨hExtends, -, -⟩ := Renamer.build_eq_ok hStart.coherent hDistinct hBuild
  obtain ⟨h₂, hAsk, -⟩ := answers_call h₁ hExtends.coherent
    (hExtends.strict_eq.trans hStart.lenient) hExtends.view_eq
  exact ⟨r, h₁, h₂, hBuild, hr, hr.rewrite_caller hAsk⟩

theorem exists_cleanRun : ∃ r, Renamer.CleanRun mappings ⟨[]⟩ Config.standard r
    [upper "m", caller "m"] [upper "n", caller "n"] ∧ Renames r.table := by
  obtain ⟨r, h₁, h₂, hBuild, hr, hCaller⟩ := exists_rewrite_caller
  have hDistinct : ([upper "m", caller "m"].map ClassModel.name).Nodup := by
    simp [upper, caller]
  have hRewrite : ([upper "m", caller "m"].mapM r.rewrite).run h₁ =
      (.ok [⟨upper "n", []⟩, ⟨caller "n", []⟩], h₂) := by
    rw [List.mapM_cons, bind_run_of_ok (hr.rewrite_upper h₁), List.mapM_cons, bind_assoc,
      bind_run_of_ok hCaller]
    rfl
  refine ⟨r, ⟨rfl, hDistinct, hr.table.parse_eq, ?_, h₁, h₂, _, hBuild, hRewrite, ?_, rfl⟩, hr.table⟩
  · intro old new hNew
    rw [hr.table.newClass?_eq] at hNew
    cases hNew
  · intro w hw d hd
    simp only [List.mem_cons, List.not_mem_nil, or_false] at hw
    rcases hw with rfl | rfl <;> cases hd

theorem undisturbed (r : Renamer) : r.Undisturbed
    (seeded ⟨[]⟩ Config.standard [upper "m", caller "m"]).view [upper "m", caller "m"] "B" := by
  obtain ⟨hUpper, hCaller, -, hAncestors, -⟩ := order "m" "m"
  have hInput : ∀ as, (seeded ⟨[]⟩ Config.standard [upper "m", caller "m"]).view.Ancestors "B" as →
      ∀ x ∈ "B" :: as, x = "B" ∨ x = "A" := by
    intro as hOther x hx
    obtain rfl := hOther.unique hAncestors
    simpa using hx
  refine ⟨fun as hOther x hx hOutside => ?_, fun as hOther x hx hNone => ?_⟩
  · rcases hInput as hOther x hx with rfl | rfl <;> simp [upper, caller] at hOutside
  · rcases hInput as hOther x hx with rfl | rfl
    · rw [hCaller] at hNone
      cases hNone
    · rw [hUpper] at hNone
      cases hNone

theorem memberReferences_caller (m : String) : (caller m).memberReferences =
    [⟨.method, "B", m, "()V"⟩] := by
  rfl

theorem meaning_call : meaning ⟨[]⟩ Config.standard [upper "m", caller "m"]
    ⟨.method, "B", "m", "()V"⟩ = .ok (some (upper "m")) :=
  Answers.meaning (a := ⟨.method, "B", "m", "()V"⟩) answers_call

theorem meaning_captured : meaning ⟨[]⟩ Config.standard [upper "n", caller "n"]
    ⟨.method, "B", "n", "()V"⟩ = .ok (some (caller "n")) :=
  Answers.meaning (a := ⟨.method, "B", "n", "()V"⟩) answers_captured

theorem meaning_of_references_call : ∃ r : Renamer, r.MeansFirst ⟨[]⟩ Config.standard
    [upper "m", caller "m"] [upper "n", caller "n"] ⟨.method, "B", "m", "()V"⟩
    ⟨.method, "B", "n", "()V"⟩ (upper "m") (upper "n") := by
  obtain ⟨r, hRun, -⟩ := exists_cleanRun
  have hPair : (caller "m", caller "n") ∈
      [upper "m", caller "m"].zip [upper "n", caller "n"] := by simp
  have hReferences := Renamer.CleanRun.meaning_of_references hRun hPair
  rw [memberReferences_caller, memberReferences_caller] at hReferences
  cases hReferences with
  | cons hCall _ =>
    exact ⟨r, hCall MemberKind.noConfusion rfl rfl (upper "m") (upper "n") (by simp) meaning_call
      (undisturbed r)⟩

end Capture

namespace Renamer.CleanRun

variable {mappings : String} {classpath : ClassPath} {config : Config} {r : Renamer}
  {inputs outputs : List ClassModel}

theorem view_eq_none (hRun : CleanRun mappings classpath config r inputs outputs) {name : String}
    (hNew : ∀ c ∈ inputs, r.className c.name ≠ name)
    (hAbsent : (seeded classpath config inputs).onClasspath name = false) :
    (seeded classpath config outputs).view name = none := by
  cases hArray : Text.startsWith '[' name with
  | true => exact view_of_array _ hArray
  | false =>
    have hOther : name ∉ outputs.map ClassModel.name := by
      rw [hRun.output_names]
      intro hMem
      obtain ⟨c, hc, hName⟩ := List.mem_map.mp hMem
      exact hNew c hc hName
    rw [onClasspath, seeded, fetch_foldl_seed] at hAbsent
    rw [view_seeded_of_not_mem hArray hOther, load]
    cases hFetch : (ofClasspath classpath config).fetch name with
    | error cause => rfl
    | ok file =>
      cases file with
      | none => rfl
      | some file =>
        rw [hFetch] at hAbsent
        cases hAbsent

/-- A class of the class path goes on naming the superclass that it was compiled against. When that
one is renamed, what the class inherited from it is lost. -/
theorem meaning_eq_none_of_renamed_parent
    (hRun : CleanRun mappings classpath config r inputs outputs) {c : ClassModel} {parent : String}
    {b : MemberRef} (hOther : c.name ∉ inputs.map ClassModel.name)
    (hView : (seeded classpath config inputs).view c.name = some c)
    (hSuper : c.superName = some parent) (hInterfaces : c.interfaces = [])
    (hRenamed : ∀ d ∈ inputs, r.className d.name ≠ parent)
    (hAbsent : (seeded classpath config inputs).onClasspath parent = false)
    (hOwner : b.owner = c.name) (hNot : c.declares b.name b.descriptor = false) :
    meaning classpath config outputs b = .ok none := by
  have hThere : (seeded classpath config outputs).view c.name = some c :=
    (hRun.view_outside hOther fun _ hd => hRun.className_ne_of_view hOther hView hd).trans hView
  have hGone := hRun.view_eq_none hRenamed hAbsent
  have hFits := fits_seeded classpath outputs hRun.lenient
  obtain ⟨hGrounded, -, hOrder⟩ := View.lookupOrder_of_missing hThere hGone hSuper hInterfaces
  rw [← hOwner] at hGrounded hOrder
  have hAnswer : Answers (seeded classpath config outputs).view (methodOwner b.key) _ :=
    answers_methodOwner hGrounded hOrder
  obtain ⟨h', hAsk, -⟩ := hAnswer _ hFits.coherent hFits.lenient rfl
  have hNone : (seeded classpath config outputs).view.firstDeclaring [b.owner] b.name b.descriptor =
      none := by
    refine View.firstDeclaring_eq_none.mpr fun x hx d hd => ?_
    rw [List.mem_singleton.mp hx, hOwner, hThere] at hd
    cases hd
    exact hNot
  rw [meaning, hAsk]
  exact congrArg Except.ok hNone

/-- A class that gets the name of one of its own missing supertypes is above itself afterwards, and no
question about its methods has an answer. -/
theorem meaning_eq_error_of_own_parent (hRun : CleanRun mappings classpath config r inputs outputs)
    {c c' : ClassModel} (h : (c, c') ∈ inputs.zip outputs) {b : MemberRef}
    (hArray : Text.startsWith '[' c.name = false) (hParent : r.className c.name ∈ c.supertypes)
    (hOther : r.className c.name ∉ inputs.map ClassModel.name)
    (hOwner : b.owner = r.className c.name) :
    ∃ why, meaning classpath config outputs b = .error why := by
  have hRewritten := hRun.rewritten_of_mem h
  have hFits := fits_seeded classpath outputs hRun.lenient
  have hSupertypes : c'.supertypes = c.supertypes.map r.className := by
    rw [ClassModel.supertypes, ClassModel.supertypes, hRewritten.superName, hRewritten.interfaces,
      List.map_append]
    cases c.superName <;> rfl
  have hSelf : b.owner ∈ (seeded classpath config outputs).view.parents b.owner := by
    rw [hOwner, View.parents_of_some (hRun.view_output h hArray), hSupertypes]
    exact List.mem_map.mpr ⟨_, hParent, hRun.className_of_not_input hOther⟩
  rcases methodOwner_spec hFits.coherent hFits.lenient b.key with
    ⟨order, h', hGrounded, -⟩ | ⟨through, h', hAsk, -⟩
  · exact absurd (.single hSelf) hGrounded.not_above_self
  · exact ⟨_, by rw [meaning, hAsk]⟩

end Renamer.CleanRun

namespace Disturbed

def call (owner : String) : MemberRef := ⟨.method, owner, "m", "()V"⟩

def calling (owner : String) : Member :=
  ⟨9, "m", "()V", [.code ⟨0, 0, [⟨0, 0xb8, .member (call owner)⟩, ⟨3, 0xb1, .none⟩], [], []⟩]⟩

def lone (name : String) (parent : Option String) (owner : String) : ClassModel :=
  ⟨0, 52, 0x21, name, parent, [], [], [calling owner], []⟩

def mappings : String := "class A X"

def table : RenameTable := RenameTable.empty.withClass "A" "X"

theorem newClass?_table : table.newClass? = fun name => if "A" = name then some "X" else none := by
  funext name
  rw [table, RenameTable.newClass?_withClass (RenameTable.newClass?_empty "A"),
    RenameTable.newClass?_empty]

theorem newMethod?_table (key : MemberKey) : table.newMethod? key = none := by
  rw [table, RenameTable.newMethod?_withClass, RenameTable.newMethod?_empty]

section Run

variable {r : Renamer} {h h' : Hierarchy} {parent : Option String} {owner : String}

theorem rewrite_lone {name : String} {d : ClassModel} (hCyclic : r.groups.cyclic = ∅)
    (hMethods : ∀ key, r.newMethod? key = none) (hOwner : Text.startsWith '[' owner = false)
    (hAsk : (methodOwner (call owner).key).run h = (.ok (some d), h')) :
    (r.rewrite (lone name parent owner)).run h =
      (.ok ⟨lone (r.className name) (parent.map r.className) (r.className owner), []⟩, h') := by
  have hDescriptor : Descriptor.rename r.table.newClass? "()V" = .ok "()V" := rfl
  have hReserved : (Text.startsWith '[' owner || Text.startsWith '<' "m") = false :=
    Bool.or_eq_false_iff.mpr ⟨hOwner, by decide⟩
  have hInstructions : ∀ s : Site, s.renamer = r →
      ([⟨0, 0xb8, .member (call owner)⟩, ⟨3, 0xb1, .none⟩].mapM s.instruction).run ⟨h, []⟩ =
        (.ok [⟨0, 0xb8, .member (call (r.className owner))⟩, ⟨3, 0xb1, .none⟩], ⟨h', []⟩) := by
    rintro s rfl
    have hReference : (s.memberRef (call owner)).run ⟨h, []⟩ = _ :=
      Site.memberRef_run rfl hReserved hAsk hDescriptor
    rw [hMethods] at hReference
    have hCall : (s.instruction ⟨0, 0xb8, .member (call owner)⟩).run ⟨h, []⟩ =
        (.ok ⟨0, 0xb8, .member (call (s.renamer.className owner))⟩, ⟨h', []⟩) := by
      rw [Site.instruction, Site.operand, bind_assoc, bind_run_of_ok hReference]
      rfl
    rw [List.mapM_cons, bind_run_of_ok hCall]
    rfl
  have hBody : ∀ s : Site, s.renamer = r →
      (s.rewriteAttributes .ofMethod (calling owner).attributes).run ⟨h, []⟩ =
        (.ok (calling (r.className owner)).attributes, ⟨h', []⟩) := by
    intro s hs
    simp only [calling, Site.rewriteAttributes, Site.rewriteAttribute]
    rw [bind_assoc, bind_run_of_ok (hInstructions s hs)]
    rfl
  have hMethod : (((r.siteOf (lone name parent owner)).atMember .method (calling owner)).method
      (calling owner)).run ⟨h, []⟩ = (.ok (calling (r.className owner)), ⟨h', []⟩) := by
    refine Site.method_run ?_ hDescriptor (hBody _ rfl)
    exact congrArg (fun new => Option.getD new "m") (hMethods _)
  rw [Renamer.rewrite_run (by rw [hCyclic]; simp) rfl rfl rfl hMethod]
  rfl

end Run

theorem exists_cleanRun {classpath : ClassPath} {parent : Option String} {owner : String}
    {d : ClassModel}
    (hPlain : OverrideGroups.Above (seeded classpath Config.standard [lone "A" parent owner]).view
      (lone "A" parent owner) [])
    (hFree : (seeded classpath Config.standard [lone "A" parent owner]).onClasspath "X" = false)
    (hOwner : Text.startsWith '[' owner = false)
    (hAnswers : Answers (seeded classpath Config.standard [lone "A" parent owner]).view
      (methodOwner (call owner).key) (some d)) :
    ∃ r, Renamer.CleanRun mappings classpath Config.standard r [lone "A" parent owner]
      [lone "X" (parent.map table.newClass?.apply) (table.newClass?.apply owner)] ∧
        r.className "A" = "X" := by
  have hName : table.newClass?.apply "A" = "X" := by
    simp [ClassRenaming.apply, newClass?_table]
  have hMembers : ∀ r : Renamer, r.table = table →
      r.checkMembers (lone "A" parent owner) = .ok () := by
    intro r _
    rw [Renamer.checkMembers_eq_ok]
    exact ⟨List.nodup_nil, List.nodup_singleton _⟩
  have hDistinct : ([lone "A" parent owner].map ClassModel.name).Nodup := List.nodup_singleton _
  obtain ⟨r, h, hBuild, hExtends, -, hTable, hCyclic, hMethods⟩ :=
    Renamer.exists_build_plain (t := table) (List.forall_mem_singleton.mpr hPlain) hDistinct
      (List.pairwise_singleton _ _) (List.forall_mem_singleton.mpr (hName.symm ▸ hFree))
      (List.forall_mem_singleton.mpr hMembers)
  have hStart : (seeded classpath Config.standard [lone "A" parent owner]).Fits _ :=
    fits_seeded classpath [lone "A" parent owner] rfl
  have hFits := hStart.extends hExtends
  -- Building the renamer asked the hierarchy, which did not change what the call means.
  obtain ⟨h', hAsk, -⟩ := hAnswers h hFits.coherent hFits.lenient hFits.view_eq
  have hRewrite : (r.rewrite (lone "A" parent owner)).run h = _ :=
    rewrite_lone hCyclic (fun key => (hMethods key).trans (newMethod?_table key)) hOwner hAsk
  have hAll : ([lone "A" parent owner].mapM r.rewrite).run h =
      (.ok [⟨lone (r.className "A") (parent.map r.className) (r.className owner), []⟩], h') := by
    rw [List.mapM_cons, bind_run_of_ok hRewrite]
    rfl
  have hClassName : r.className = table.newClass?.apply := by
    funext name
    rw [Renamer.className, hTable]
  refine ⟨r, ⟨rfl, hDistinct, ?_, ?_, h, h', _, hTable.symm ▸ hBuild, hAll, ?_, ?_⟩,
    hClassName ▸ hName⟩
  · rw [hTable]
    exact RenameTable.parse_withClass rfl rfl rfl
  · intro old new hNew
    rw [hTable, newClass?_table] at hNew
    dsimp only at hNew
    split at hNew
    · rename_i hOld
      rw [← hOld]
      exact List.mem_singleton_self _
    · cases hNew
  · intro w hw n hn
    rw [List.mem_singleton.mp hw] at hn
    cases hn
  · rw [hClassName, hName]
    rfl

/-- A class of the class path that is below the renamed one. -/
def below : ClassModel := ⟨0, 52, 0x21, "C", some "A", [], [], [], []⟩

def belowFile : Bytes :=
  [202, 254, 186, 190, 0, 0, 0, 52, 0, 5, 1, 0, 1, 67, 7, 0, 1, 1, 0, 1, 65, 7, 0, 3, 0, 33, 0, 2, 0,
    4, 0, 0, 0, 0, 0, 0, 0, 0]

def path : ClassPath := ⟨[Std.HashMap.insert ∅ "C" (.bytes belowFile)]⟩

theorem parse_belowFile : ClassModel.parse belowFile = .ok below := by rfl

theorem find?_path (name : String) :
    path.find? name = if "C" = name then some (.bytes belowFile) else none := by
  by_cases hName : "C" = name <;> simp [path, ClassPath.find?, hName]

theorem fetch_path (classes : List ClassModel) (name : String) :
    (seeded path Config.standard classes).fetch name =
      .ok (if "C" = name then some belowFile else none) := by
  rw [seeded, fetch_foldl_seed, fetch, ofClasspath, find?_path]
  by_cases hName : "C" = name
  · rw [if_pos hName, if_pos hName]
  · rw [if_neg hName, if_neg hName]

theorem load_path (name : String) : ((ofClasspath path Config.standard).load name).toOption =
    if "C" = name then some below else none := by
  have hFetch : (ofClasspath path Config.standard).fetch name = _ := fetch_path [] name
  rw [load, hFetch]
  by_cases hName : "C" = name
  · subst hName
    rw [if_pos rfl, if_pos rfl]
    dsimp only
    rw [parse_belowFile]
    rfl
  · rw [if_neg hName, if_neg hName]
    rfl

theorem view_path {classes : List ClassModel} {name : String} (hName : Text.startsWith '[' name = false)
    (hOther : name ∉ classes.map ClassModel.name) :
    (seeded path Config.standard classes).view name = if "C" = name then some below else none := by
  rw [view_seeded_of_not_mem hName hOther, load_path]

/-- The class calls its method as one of `C`. -/
def outward (name : String) : ClassModel := lone name none "C"

/-- No class is missing at or above `C`, and `A.m` is not found through `C` any more when `A` is
renamed. -/
theorem reference_lost : ∃ r,
    Renamer.CleanRun mappings path Config.standard r [outward "A"] [outward "X"] ∧
    (∀ as, (seeded path Config.standard [outward "A"]).view.Ancestors "C" as →
      ∀ x ∈ "C" :: as, (seeded path Config.standard [outward "A"]).view x ≠ none) ∧
    meaning path Config.standard [outward "A"] (call "C") = .ok (some (outward "A")) ∧
    meaning path Config.standard [outward "X"] (call "C") = .ok none := by
  have hDistinct : ([outward "A"].map ClassModel.name).Nodup := List.nodup_singleton _
  have hTop : (seeded path Config.standard [outward "A"]).view "A" = some (outward "A") :=
    view_seeded_of_mem hDistinct (List.mem_singleton_self _)
      (by decide : Text.startsWith '[' "A" = false)
  have hBelow : (seeded path Config.standard [outward "A"]).view "C" = some below :=
    (view_path (by decide) (by simp [outward, lone])).trans (if_pos rfl)
  obtain ⟨hGrounded, hAncestors, hOrder⟩ :=
    View.lookupOrder_of_parent hBelow hTop rfl rfl rfl rfl (by decide)
  have hParents : (seeded path Config.standard [outward "A"]).view.parents "A" = [] :=
    View.parents_of_some hTop
  have hFirst : (seeded path Config.standard [outward "A"]).view.firstDeclaring ["C", "A"] "m" "()V" =
      some (outward "A") := by
    rw [View.firstDeclaring_cons hBelow, View.firstDeclaring_cons hTop]
    rfl
  have hAnswers : Answers (seeded path Config.standard [outward "A"]).view
      (methodOwner (call "C").key) (some (outward "A")) := by
    rw [← hFirst]
    exact answers_methodOwner hGrounded hOrder
  have hFree : (seeded path Config.standard [outward "A"]).onClasspath "X" = false := by
    rw [onClasspath, fetch_path]
    rfl
  obtain ⟨r, hRun, hNew⟩ := exists_cleanRun
    (OverrideGroups.above_of_top hParents) hFree (by decide) hAnswers
  have hOwner : table.newClass?.apply "C" = "C" := by
    simp [ClassRenaming.apply, newClass?_table]
  rw [hOwner] at hRun
  refine ⟨r, hRun, ?_, hAnswers.meaning, ?_⟩
  · intro as hOther x hx
    obtain rfl := hOther.unique hAncestors
    rcases List.mem_cons.mp hx with rfl | hx
    · rw [hBelow]
      exact Option.some_ne_none _
    · rw [List.mem_singleton.mp hx, hTop]
      exact Option.some_ne_none _
  · refine hRun.meaning_eq_none_of_renamed_parent (c := below) (by simp [below, lone])
      hBelow rfl rfl ?_ ?_ rfl rfl
    · intro d hd
      rw [List.mem_singleton.mp hd]
      exact ne_of_eq_of_ne hNew (by decide)
    · rw [onClasspath, fetch_path]
      rfl

/-- The class calls its method as its own, and its superclass `X` is missing. -/
def upward (name : String) : ClassModel := lone name (some "X") name

/-- There is no class path, and `A.m` is not found any more when `A` gets the name of its own missing
superclass. -/
theorem reference_circular : ∃ r,
    Renamer.CleanRun mappings ⟨[]⟩ Config.standard r [upward "A"] [upward "X"] ∧
    meaning ⟨[]⟩ Config.standard [upward "A"] (call "A") = .ok (some (upward "A")) ∧
    ∃ why, meaning ⟨[]⟩ Config.standard [upward "X"] (call "X") = .error why := by
  have hDistinct : ([upward "A"].map ClassModel.name).Nodup := List.nodup_singleton _
  have hView : (seeded ⟨[]⟩ Config.standard [upward "A"]).view "A" = some (upward "A") :=
    view_seeded_of_mem hDistinct (List.mem_singleton_self _)
      (by decide : Text.startsWith '[' "A" = false)
  have hMissing : (seeded ⟨[]⟩ Config.standard [upward "A"]).view "X" = none := by
    rw [view_seeded_of_not_mem (by decide) (by simp [upward, lone])]
    rfl
  obtain ⟨hGrounded, -, hOrder⟩ := View.lookupOrder_of_missing hView hMissing rfl rfl
  have hFirst : (seeded ⟨[]⟩ Config.standard [upward "A"]).view.firstDeclaring ["A"] "m" "()V" =
      some (upward "A") := by
    rw [View.firstDeclaring_cons hView]
    rfl
  have hAnswers : Answers (seeded ⟨[]⟩ Config.standard [upward "A"]).view
      (methodOwner (call "A").key) (some (upward "A")) := by
    rw [← hFirst]
    exact answers_methodOwner hGrounded hOrder
  have hAbove : OverrideGroups.Above (seeded ⟨[]⟩ Config.standard [upward "A"]).view (upward "A") _ :=
    OverrideGroups.above_of_parent (View.parents_of_some hView) (View.parents_of_none hMissing)
  rw [hMissing] at hAbove
  obtain ⟨r, hRun, hNew⟩ := exists_cleanRun hAbove
    (Renamer.onClasspath_empty _ _) (by decide) hAnswers
  have hNames : table.newClass?.apply "A" = "X" ∧ table.newClass?.apply "X" = "X" := by
    simp [ClassRenaming.apply, newClass?_table]
  rw [Option.map_some, hNames.1, hNames.2] at hRun
  refine ⟨r, hRun, hAnswers.meaning, hRun.meaning_eq_error_of_own_parent (c := upward "A")
    (List.mem_singleton_self _) (by decide : Text.startsWith '[' "A" = false) ?_ ?_ ?_⟩
  · exact hNew ▸ List.mem_singleton_self _
  · rw [show (upward "A").name = "A" from rfl, hNew]
    simp [lone]
  · exact hNew.symm

end Disturbed

namespace Capture

/-- It is not always the rewriting of the class that was meant before. Without the conditions on what is
above the owner, the call can also mean nothing, or have no answer. -/
theorem references_not_kept : (¬ ∀ (mappings : String) (classpath : ClassPath) (config : Config)
    (r : Renamer) (inputs outputs : List ClassModel),
    (∀ c ∈ inputs, ∃ file, ClassModel.parse file = .ok c) →
    (∀ key new, r.table.newField? key = some new → key.owner ∈ inputs.map ClassModel.name) →
    (∀ key new, r.table.newMethod? key = some new → key.owner ∈ inputs.map ClassModel.name) →
      Renamer.CleanRun mappings classpath config r inputs outputs →
        ∀ c c', (c, c') ∈ inputs.zip outputs →
          List.Forall₂ (fun a b : MemberRef => a.kind ≠ .field →
            Text.startsWith '[' a.owner = false → Text.startsWith '<' a.name = false →
              ∀ d d', (d, d') ∈ inputs.zip outputs →
                meaning classpath config inputs a = .ok (some d) →
                  meaning classpath config outputs b = .ok (some d'))
            c.memberReferences c'.memberReferences) ∧
    (∃ r, Renamer.CleanRun Disturbed.mappings Disturbed.path Config.standard r
        [Disturbed.outward "A"] [Disturbed.outward "X"] ∧
      (∀ as, (seeded Disturbed.path Config.standard [Disturbed.outward "A"]).view.Ancestors "C" as →
        ∀ x ∈ "C" :: as,
          (seeded Disturbed.path Config.standard [Disturbed.outward "A"]).view x ≠ none) ∧
      meaning Disturbed.path Config.standard [Disturbed.outward "A"] (Disturbed.call "C") =
        .ok (some (Disturbed.outward "A")) ∧
      meaning Disturbed.path Config.standard [Disturbed.outward "X"] (Disturbed.call "C") = .ok none) ∧
    ∃ r, Renamer.CleanRun Disturbed.mappings ⟨[]⟩ Config.standard r
        [Disturbed.upward "A"] [Disturbed.upward "X"] ∧
      meaning ⟨[]⟩ Config.standard [Disturbed.upward "A"] (Disturbed.call "A") =
        .ok (some (Disturbed.upward "A")) ∧
      ∃ why, meaning ⟨[]⟩ Config.standard [Disturbed.upward "X"] (Disturbed.call "X") =
        .error why := by
  refine ⟨?_, Disturbed.reference_lost, Disturbed.reference_circular⟩
  intro hAll
  obtain ⟨r, hRun, hTable⟩ := exists_cleanRun
  have hParsed : ∀ c ∈ [upper "m", caller "m"], ∃ file, ClassModel.parse file = .ok c := by
    simp only [List.forall_mem_cons]
    exact ⟨⟨_, parse_upperFile⟩, ⟨_, parse_callerFile⟩, List.forall_mem_nil _⟩
  have hFields : ∀ key new, r.table.newField? key = some new →
      key.owner ∈ [upper "m", caller "m"].map ClassModel.name := by
    intro key new hNew
    rw [hTable.newField?_eq] at hNew
    cases hNew
  have hMethods : ∀ key new, r.table.newMethod? key = some new →
      key.owner ∈ [upper "m", caller "m"].map ClassModel.name := by
    intro key new hNew
    rw [hTable.newMethod?_eq] at hNew
    split at hNew
    · rename_i hKey
      rw [← hKey]
      exact List.mem_cons_self
    · cases hNew
  have hReferences := hAll _ _ _ r _ _ hParsed hFields hMethods hRun (caller "m") (caller "n") (by simp)
  rw [memberReferences_caller, memberReferences_caller] at hReferences
  cases hReferences with
  | cons hCall _ =>
    have hKept := hCall MemberKind.noConfusion rfl rfl (upper "m") (upper "n") (by simp) meaning_call
    rw [meaning_captured, Except.ok.injEq, Option.some.injEq] at hKept
    exact absurd (congrArg ClassModel.name hKept) (by simp [upper, caller])

end Capture

end Renaming
