import Renaming.Proofs.RenameTable
import Renaming.Proofs.Renamer
import Renaming.Proofs.Rewrite.Traversal
import Renaming.Proofs.Signature.Kinds

/-!
# No old class name is left

Every mention names classes, and its renaming names the renamed classes. So all class names of a
rewritten class are the new names of those that it had, in the same order.
-/

namespace Renaming

open Effectful Hierarchy Rewriting

/-- The classes that a mention names, in order. Signatures only count for the classes that they name
in full. -/
def Mention.classNames : Mention → List String
  | name n => [n]
  | reference text => Descriptor.referenceNames text
  | descriptor text | literal text => Descriptor.classNames text
  | member r => Descriptor.referenceNames r.owner ++ Descriptor.classNames r.descriptor
  | signature kind text => kind.classNames text
  | localType text => Descriptor.fieldNames text
  | localSignature text => SignatureKind.ofField.classNames text

/-- The classes that a class names, in order, apart from the constants that are the values of
fields. -/
def ClassModel.classNames (c : ClassModel) : List String := c.mentions.flatMap Mention.classNames

/-- The classes that constants name as the values of fields. -/
def ClassModel.valueNames (c : ClassModel) : List String :=
  c.fields.flatMap fun m => m.attributes.flatMap fun
    | .plain (.constantValue value) => value.mentions.flatMap Mention.classNames
    | _ => []

/-- The nested classes in a signature have simple names after renaming. -/
def Mention.NestsSimply (f : ClassRenaming) : Mention → Prop
  | signature kind text => kind.NestsSimply f text
  | localSignature text => SignatureKind.ofField.NestsSimply f text
  | _ => True

/-- Owner and descriptor of a reference are renamed. -/
def MemberRef.TypesRenamed (f : ClassRenaming) (a b : MemberRef) : Prop :=
  Descriptor.renameReference f a.owner = .ok b.owner ∧
    Descriptor.rename f a.descriptor = .ok b.descriptor

variable {f : ClassRenaming}

theorem Mention.classNames_of_renamed (hf : f.Names FieldType.endsName) {a b : Mention}
    (hNests : a.NestsSimply f) (h : a.Renamed f True (MemberRef.TypesRenamed f) b) :
    b.classNames = a.classNames.map f.apply := by
  have hf' : f.Names TypeSignature.endsClassName := fun old new hNew =>
    (hf old new hNew).imp fun c hc => by
      simp only [FieldType.endsName, TypeSignature.endsClassName, Bool.or_eq_false_iff] at hc ⊢
      tauto
  cases h with
  | name n => rfl
  | reference h => exact Descriptor.referenceNames_of_renameReference hf h
  | descriptor h => exact Descriptor.classNames_of_rename hf h
  | nothing => rfl
  | literal h => exact Descriptor.classNames_of_rename hf h
  | member h =>
    rw [classNames, classNames, List.map_append, Descriptor.referenceNames_of_renameReference hf h.1,
      Descriptor.classNames_of_rename hf h.2]
  | signature h => exact SignatureKind.classNames_of_rename hf' hNests h
  | localType h => exact Descriptor.fieldNames_of_renameField hf (h trivial)
  | @localSignature text _ h =>
    have hText : SignatureKind.ofField.NestsSimply f text := hNests
    exact SignatureKind.classNames_of_rename hf' hText (h trivial)

theorem Mention.classNames_of_forall₂ (hf : f.Names FieldType.endsName) {as bs : List Mention}
    (hNests : ∀ a ∈ as, a.NestsSimply f)
    (h : List.Forall₂ (Mention.Renamed f True (MemberRef.TypesRenamed f)) as bs) :
    bs.flatMap Mention.classNames = (as.flatMap Mention.classNames).map f.apply := by
  induction h with
  | nil => rfl
  | cons hHead _ ih =>
    obtain ⟨hNest, hNests⟩ := List.forall_mem_cons.mp hNests
    rw [List.flatMap_cons, List.flatMap_cons, List.map_append, ih hNests,
      classNames_of_renamed hf hNest hHead]

theorem Site.yields_memberRef_types {s : Site} {I : Hierarchy → Prop} {Bad : Diagnostic → Prop}
    (hI : Hierarchy.Allows I) (a : MemberRef) :
    Yields I Bad (s.memberRef a) (a.TypesRenamed s.renamer.table.newClass?) := by
  refine (yields_memberRef (fun _ => (composed_fieldName _).yields_any hI)
    fun _ => (composed_methodName _).yields_any hI).mono fun b hb => ?_
  obtain ⟨-, hOwner, -, hDescriptor⟩ := hb
  exact ⟨hOwner, hDescriptor⟩

/-- If nothing is kept, the classes that a rewritten class names are the renamed ones of those that it
named before. -/
theorem Renamer.classNames_rewrite {r : Renamer} {c : ClassModel} {h h' : Hierarchy} {w : Rewritten}
    (hNames : r.table.newClass?.Names FieldType.endsName)
    (hNests : ∀ m ∈ c.mentions, m.NestsSimply r.table.newClass?)
    (hRun : (r.rewrite c).run h = (.ok w, h'))
    (hClean : ∀ d ∈ w.diagnostics, d.kind ≠ .descriptor ∧ d.kind ≠ .debug) :
    w.model.classNames = c.classNames.map r.className := by
  have hAllows : Hierarchy.Allows fun _ => True :=
    ⟨fun _ _ _ => trivial, fun _ _ _ => trivial, fun _ _ _ => trivial⟩
  have hMembers : ∀ subject m, Yields (fun _ => True) (Diagnostic.Spoils True)
      (Site.memberRef { r.siteOf c with subject := subject } m)
        (m.TypesRenamed r.table.newClass?) :=
    fun subject m => Site.yields_memberRef_types hAllows m
  obtain ⟨-, hResult⟩ := Renamer.rewrite_spec hAllows hMembers trivial hRun
  have hRewritten := hResult fun d hd => by
    rintro (hKind | ⟨-, hKind⟩)
    · exact (hClean d hd).1 hKind
    · exact (hClean d hd).2 hKind
  exact Mention.classNames_of_forall₂ hNames hNests hRewritten.mentions

namespace FieldHolder

def holder (descriptor : String) (attributes : List Attribute) : ClassModel :=
  ⟨0, 52, 0x21, "A", none, [], [⟨0x18, "f", descriptor, attributes⟩], [], []⟩

def table (new : String) : RenameTable := RenameTable.empty.withClass "A" new

/-- A table that also moves the nested class `C$D` out of its class. -/
def movingTable : RenameTable := (table "B").withClass "C$D" "p/q"

variable {t : RenameTable} {descriptor descriptor' : String} {attributes attributes' : List Attribute}

def start (descriptor : String) (attributes : List Attribute) : Hierarchy :=
  seeded ⟨[]⟩ Config.standard [holder descriptor attributes]

theorem exists_renamer (t : RenameTable) (descriptor : String) (attributes : List Attribute) :
    ∃ r h', (Renamer.build t [holder descriptor attributes] Config.standard).run
        (start descriptor attributes) = (.ok r, h') ∧
      r.table = t ∧ r.groups.cyclic = ∅ := by
  refine Renamer.exists_build_alone (by decide : Text.startsWith '[' "A" = false) rfl rfl ?_
  intro r _
  simp [Renamer.checkMembers, holder, firstClash?, firstClashFrom]
  rfl

theorem field_run {s : Site} {h : Hierarchy}
    (hName : s.renamer.newField? ⟨s.owner, "f", descriptor⟩ = none)
    (hDescriptor : Descriptor.rename s.renamer.table.newClass? descriptor = .ok descriptor')
    (hAttributes : (s.rewriteAttributes .ofField attributes).run ⟨h, []⟩ =
      (.ok attributes', ⟨h, []⟩)) :
    (orKeep ⟨0x18, "f", descriptor, attributes⟩
      (s.field ⟨0x18, "f", descriptor, attributes⟩)).run ⟨h, []⟩ =
        (.ok ⟨0x18, "f", descriptor', attributes'⟩, ⟨h, []⟩) := by
  have hStep : (s.descriptor descriptor).run ⟨h, []⟩ = (.ok descriptor', ⟨h, []⟩) := by
    rw [Site.descriptor, hDescriptor]
    rfl
  refine tryCatch_run.mpr (Or.inl ⟨_, ?_, rfl⟩)
  rw [Site.field, bind_run_of_ok hStep, bind_run_of_ok hAttributes]
  dsimp only
  rw [hName]
  rfl

theorem rewrite_run {r : Renamer} {h : Hierarchy} (hCyclic : r.groups.cyclic = ∅)
    (hFields : ∀ key, r.table.newField? key = none)
    (hDescriptor : Descriptor.rename r.table.newClass? descriptor = .ok descriptor')
    (hAttributes : ∀ s : Site, s.renamer = r →
      (s.rewriteAttributes .ofField attributes).run ⟨h, []⟩ = (.ok attributes', ⟨h, []⟩)) :
    (r.rewrite (holder descriptor attributes)).run h =
      (.ok ⟨{ holder descriptor' attributes' with name := r.table.newClass?.apply "A" }, []⟩, h) := by
  have hAcyclic : r.groups.cyclic[(holder descriptor attributes).name]? = none := by
    rw [hCyclic]
    simp
  refine Renamer.rewrite_eq_ok.mpr ⟨hAcyclic, [], ?_, rfl⟩
  have hFieldList : (holder descriptor attributes).fields =
      [⟨0x18, "f", descriptor, attributes⟩] := rfl
  have hMethodList : (holder descriptor attributes).methods = [] := rfl
  have hAttributeList : (holder descriptor attributes).attributes = [] := rfl
  have hField : (orKeep ⟨0x18, "f", descriptor, attributes⟩
      (((r.siteOf (holder descriptor attributes)).atMember .field
        ⟨0x18, "f", descriptor, attributes⟩).field ⟨0x18, "f", descriptor, attributes⟩)).run
          ⟨h, []⟩ = (.ok ⟨0x18, "f", descriptor', attributes'⟩, ⟨h, []⟩) := by
    generalize hSite : (r.siteOf (holder descriptor attributes)).atMember .field
      ⟨0x18, "f", descriptor, attributes⟩ = s
    have hRenamer : s.renamer = r := by rw [← hSite]; rfl
    subst hRenamer
    exact field_run (hFields _) hDescriptor (hAttributes s rfl)
  rw [Site.rewriteClass, hFieldList, hMethodList, hAttributeList, List.mapM_cons, List.mapM_nil,
    List.mapM_nil, List.mapM_nil, bind_assoc, bind_run_of_ok hField]
  rfl

theorem rewriteAlone_run (hFields : ∀ key, t.newField? key = none)
    (hDescriptor : Descriptor.rename t.newClass? descriptor = .ok descriptor')
    (hAttributes : ∀ s : Site, s.renamer.table = t → ∀ h : Hierarchy,
      (s.rewriteAttributes .ofField attributes).run ⟨h, []⟩ = (.ok attributes', ⟨h, []⟩)) :
    ∃ h', (Renamer.rewriteAlone t (holder descriptor attributes)).run
      (ofClasspath ⟨[]⟩ Config.standard) =
        (.ok ⟨{ holder descriptor' attributes' with name := t.newClass?.apply "A" }, []⟩, h') := by
  obtain ⟨r, h', hBuild, rfl, hCyclic⟩ := exists_renamer t descriptor attributes
  refine ⟨h', ?_⟩
  change ((Renamer.build r.table [holder descriptor attributes] Config.standard) >>= fun r' =>
    r'.rewrite (holder descriptor attributes)).run (start descriptor attributes) = _
  rw [bind_run_of_ok hBuild]
  exact rewrite_run hCyclic hFields hDescriptor fun s hRenamer =>
    hAttributes s (congrArg Renamer.table hRenamer) h'

theorem newClass?_table (new name : String) :
    (table new).newClass? name = if "A" = name then some new else none := by
  rw [table, RenameTable.newClass?_withClass (RenameTable.newClass?_empty "A"),
    RenameTable.newClass?_empty]

theorem apply_table (new : String) : (table new).newClass?.apply "A" = new := by
  rw [ClassRenaming.apply, newClass?_table]
  rfl

theorem newClass?_movingTable (name : String) : movingTable.newClass? name =
    if "C$D" = name then some "p/q" else if "A" = name then some "B" else none := by
  rw [movingTable, RenameTable.newClass?_withClass (newClass?_table "B" "C$D"), newClass?_table]

theorem names_table : (table "B").newClass?.Names FieldType.endsName := by
  intro old new hNew
  rw [newClass?_table] at hNew
  split at hNew
  · cases hNew
    decide
  · cases hNew

theorem names_movingTable : movingTable.newClass?.Names FieldType.endsName := by
  intro old new hNew
  rw [newClass?_movingTable] at hNew
  split at hNew
  · cases hNew
    decide
  · split at hNew
    · cases hNew
      decide
    · cases hNew

theorem rewriteAlone_type (new : String) : ∃ h', (Renamer.rewriteAlone (table new)
    (holder "LA;" [])).run (ofClasspath ⟨[]⟩ Config.standard) =
      (.ok ⟨{ holder (FieldType.object new).text [] with name := new }, []⟩, h') := by
  have hParse : FieldType.parse "LA;" = .ok (.object "A") := by rfl
  have hDescriptor : Descriptor.rename (table new).newClass? "LA;" =
      .ok (FieldType.object new).text := by
    rw [Descriptor.rename, if_neg (by decide), Descriptor.renameField, hParse, Outcome.ok_bind,
      FieldType.rename, apply_table]
    rfl
  have hAttributes : ∀ s : Site, s.renamer.table = table new → ∀ h : Hierarchy,
      (s.rewriteAttributes .ofField []).run ⟨h, []⟩ = (.ok [], ⟨h, []⟩) := fun _ _ _ => rfl
  have hRun := rewriteAlone_run (fun key => by simp [table]) hDescriptor
    hAttributes
  rwa [apply_table] at hRun

theorem rewriteAlone_value : ∃ h', (Renamer.rewriteAlone (table "B")
    (holder "I" [.plain (.constantValue (.classRef "A"))])).run (ofClasspath ⟨[]⟩ Config.standard) =
      (.ok ⟨{ holder "I" [.plain (.constantValue (.classRef "A"))] with name := "B" }, []⟩, h') := by
  have hAttributes : ∀ s : Site, s.renamer.table = table "B" → ∀ h : Hierarchy,
      (s.rewriteAttributes .ofField [.plain (.constantValue (.classRef "A"))]).run ⟨h, []⟩ =
        (.ok [.plain (.constantValue (.classRef "A"))], ⟨h, []⟩) := by
    intro s _ h
    simp only [Site.rewriteAttributes, Site.rewriteAttribute, Site.plainAttribute]
    rfl
  have hRun := rewriteAlone_run (fun key => by simp [table])
    (by rfl : Descriptor.rename (table "B").newClass? "I" = .ok "I") hAttributes
  rwa [apply_table] at hRun

theorem rewriteAlone_signature : ∃ h', (Renamer.rewriteAlone movingTable
    (holder "I" [.plain (.signature "LC<LA;>.D;")])).run (ofClasspath ⟨[]⟩ Config.standard) =
      (.ok ⟨{ holder "I" [.plain (.signature "LC<LB;>.p/q;")] with name := "B" }, []⟩, h') := by
  have hTable : movingTable.newClass? = fun name =>
      if "C$D" = name then some "p/q" else if "A" = name then some "B" else none :=
    funext newClass?_movingTable
  have hSignature : SignatureKind.rename movingTable.newClass? "LC<LA;>.D;" .ofField =
      .ok "LC<LB;>.p/q;" := by
    rw [hTable]
    decide +kernel
  have hAttributes : ∀ s : Site, s.renamer.table = movingTable → ∀ h : Hierarchy,
      (s.rewriteAttributes .ofField [.plain (.signature "LC<LA;>.D;")]).run ⟨h, []⟩ =
        (.ok [.plain (.signature "LC<LB;>.p/q;")], ⟨h, []⟩) := by
    intro s hs h
    have hStep : s.signature .ofField "LC<LA;>.D;" = pure "LC<LB;>.p/q;" := by
      rw [Site.signature, hs, hSignature]
    simp only [Site.rewriteAttributes, Site.rewriteAttribute, Site.plainAttribute, hStep]
    rfl
  have hRun := rewriteAlone_run (fun key => by simp [movingTable, table])
    (by rfl : Descriptor.rename movingTable.newClass? "I" = .ok "I") hAttributes
  have hApply : movingTable.newClass?.apply "A" = "B" := by
    rw [ClassRenaming.apply, newClass?_movingTable]
    rfl
  rwa [hApply] at hRun

theorem exists_rewrite {w : Rewritten} {h' : Hierarchy}
    (hRun : (Renamer.rewriteAlone t (holder descriptor attributes)).run
      (ofClasspath ⟨[]⟩ Config.standard) = (.ok w, h')) :
    ∃ (r : Renamer) (h : Hierarchy), r.table = t ∧
      (r.rewrite (holder descriptor attributes)).run h = (.ok w, h') := by
  have hSteps : (Renamer.build t [holder descriptor attributes] Config.standard >>= fun r =>
      r.rewrite (holder descriptor attributes)).run (start descriptor attributes) = (.ok w, h') := hRun
  rcases bind_run.mp hSteps with ⟨r, h, hBuild, hRewrite⟩ | ⟨e, -, hFails⟩
  · have hReached := reached_seeded ⟨[]⟩ Config.standard [holder descriptor attributes]
    obtain ⟨-, hTable, -⟩ := Renamer.build_eq_ok hReached.coherent.1 (by simp) hBuild
    exact ⟨r, h, hTable, hRewrite⟩
  · cases hFails

def typeFile : Bytes :=
  [202, 254, 186, 190, 0, 0, 0, 52, 0, 5, 1, 0, 1, 65, 7, 0, 1, 1, 0, 1, 102, 1, 0, 3, 76, 65, 59, 0,
    33, 0, 2, 0, 0, 0, 0, 0, 1, 0, 24, 0, 3, 0, 4, 0, 0, 0, 0, 0, 0]

def valueFile : Bytes :=
  [202, 254, 186, 190, 0, 0, 0, 52, 0, 6, 1, 0, 1, 65, 7, 0, 1, 1, 0, 1, 102, 1, 0, 1, 73, 1, 0, 13,
    67, 111, 110, 115, 116, 97, 110, 116, 86, 97, 108, 117, 101, 0, 33, 0, 2, 0, 0, 0, 0, 0, 1, 0, 24,
    0, 3, 0, 4, 0, 1, 0, 5, 0, 0, 0, 2, 0, 2, 0, 0, 0, 0]

def signatureFile : Bytes :=
  [202, 254, 186, 190, 0, 0, 0, 52, 0, 7, 1, 0, 1, 65, 7, 0, 1, 1, 0, 1, 102, 1, 0, 1, 73, 1, 0, 9,
    83, 105, 103, 110, 97, 116, 117, 114, 101, 1, 0, 10, 76, 67, 60, 76, 65, 59, 62, 46, 68, 59, 0,
    33, 0, 2, 0, 0, 0, 0, 0, 1, 0, 24, 0, 3, 0, 4, 0, 1, 0, 5, 0, 0, 0, 2, 0, 6, 0, 0, 0, 0]

theorem classNames_rewrite_type : ∃ (r : Renamer) (h h' : Hierarchy) (w : Rewritten),
    (r.rewrite (holder "LA;" [])).run h = (.ok w, h') ∧ w.model.classNames = ["B", "B"] := by
  obtain ⟨h', hRun⟩ := rewriteAlone_type "B"
  obtain ⟨r, h, hTable, hRewrite⟩ := exists_rewrite hRun
  refine ⟨r, h, h', _, hRewrite, ?_⟩
  rw [Renamer.classNames_rewrite (hTable ▸ names_table) (fun m hm => ?_) hRewrite
    (fun d hd => absurd hd List.not_mem_nil)]
  · have hOld : (holder "LA;" []).classNames = ["A", "A"] := by rfl
    have hNew : r.className "A" = "B" := by
      rw [Renamer.className, hTable, apply_table]
    rw [hOld, List.map_cons, List.map_singleton, hNew]
  · have hMentions : (holder "LA;" []).mentions = [.name "A", .descriptor "LA;"] := by rfl
    rw [hMentions] at hm
    simp only [List.mem_cons, List.not_mem_nil, or_false] at hm
    rcases hm with rfl | rfl <;> trivial

/-- Of the class `A` with one field, a class constant that is the value of the field keeps the name `A`.
The type `LA;` is no descriptor any more if `A` gets the name `a;b`, and the signature `LC<LA;>.D;` is
none if the nested class gets the name `p/q`. -/
theorem classNames_left :
    (¬ ∀ (t : RenameTable) (file : Bytes) (c : ClassModel) (h' : Hierarchy) (w : Rewritten),
      ClassModel.parse file = .ok c →
        (Renamer.rewriteAlone t c).run (ofClasspath ⟨[]⟩ Config.standard) = (.ok w, h') →
          w.diagnostics = [] → w.model.valueNames = c.valueNames.map t.newClass?.apply) ∧
    (¬ ∀ (t : RenameTable) (file : Bytes) (c : ClassModel) (h' : Hierarchy) (w : Rewritten),
      ClassModel.parse file = .ok c →
        (Renamer.rewriteAlone t c).run (ofClasspath ⟨[]⟩ Config.standard) = (.ok w, h') →
          w.diagnostics = [] → w.model.classNames = c.classNames.map t.newClass?.apply) ∧
    ¬ ∀ (t : RenameTable) (file : Bytes) (c : ClassModel) (h' : Hierarchy) (w : Rewritten),
      t.newClass?.Names FieldType.endsName → ClassModel.parse file = .ok c →
        (Renamer.rewriteAlone t c).run (ofClasspath ⟨[]⟩ Config.standard) = (.ok w, h') →
          w.diagnostics = [] → w.model.classNames = c.classNames.map t.newClass?.apply := by
  refine ⟨fun hAll => ?_, fun hAll => ?_, fun hAll => ?_⟩
  · obtain ⟨h', hRun⟩ := rewriteAlone_value
    have hNames : ["A"] = ["A"].map (table "B").newClass?.apply :=
      hAll _ valueFile _ h' _ (by rfl) hRun rfl
    rw [List.map_singleton, apply_table] at hNames
    simp at hNames
  · obtain ⟨h', hRun⟩ := rewriteAlone_type "a;b"
    have hLength := congrArg List.length (hAll _ typeFile _ h' _ (by rfl) hRun rfl)
    have hOld : (holder "LA;" []).classNames.length = 2 := by rfl
    have hNew : ClassModel.classNames { holder "La;b;" [] with name := "a;b" } = ["a;b"] := by rfl
    rw [List.length_map, hOld] at hLength
    exact absurd ((congrArg List.length hNew).symm.trans hLength) (by decide)
  · obtain ⟨h', hRun⟩ := rewriteAlone_signature
    have hLength := congrArg List.length (hAll _ signatureFile _ h' _ names_movingTable (by rfl) hRun rfl)
    have hOld : (holder "I" [.plain (.signature "LC<LA;>.D;")]).classNames.length = 2 := by
      decide +kernel
    have hNew : (ClassModel.classNames
        { holder "I" [.plain (.signature "LC<LB;>.p/q;")] with name := "B" }).length = 1 := by
      decide +kernel
    rw [List.length_map, hOld] at hLength
    exact absurd (hNew.symm.trans hLength) (by decide)

end FieldHolder

end Renaming
