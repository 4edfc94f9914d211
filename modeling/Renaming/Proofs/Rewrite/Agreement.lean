import Renaming.Proofs.Rewrite.References
import Renaming.Proofs.Rewrite.Uses

/-!
# References agree with declarations

A declaration is renamed under its own key, and a reference under the key of the declaration that is
found for it. Since both ask the same groups and the same table, a use of a member has the name and
the descriptor that the member has in its own class after rewriting.
-/

namespace Renaming

open Effectful Hierarchy OverrideGroups

namespace Renamer

/-- A renamer that was built for input classes in a lenient hierarchy, where the classes had been put
before; `h` is the hierarchy after that. -/
structure BuiltFor (r : Renamer) (classpath : ClassPath) (config : Config)
    (classes : List ClassModel) (h : Hierarchy) : Prop where
  lenient : config.failOnUnresolved = false
  distinct : (classes.map ClassModel.name).Nodup
  table : r.table.Built
  built : ∃ h₀, Reached classpath config h₀ ∧ (∀ c ∈ classes, h₀.nodes[c.name]? = some (some c)) ∧
    (build r.table classes config).run h₀ = (.ok r, h)

/-- A use `u'` after rewriting, which referred to the member `key` before, agrees with what happens to
declarations. -/
structure Agrees (r : Renamer) (h : Hierarchy) (notes : List Diagnostic) (kind : MemberKind)
    (key : MemberKey) (u' : MemberUse) : Prop where
  /-- If there is a declaration, it has the same name and descriptor in its class as rewritten. -/
  declared : ∀ d, h.declarer? kind key = some d →
    (∃ m ∈ d.membersOf kind, m.isNamed key.name key.descriptor = true) ∧
    ∀ g g' w, h.Extends g → (r.rewrite d).run g = (.ok w, g') →
      (∀ n ∈ w.diagnostics, n.kind ≠ .descriptor) →
        List.Forall₂ (fun m m' => m.isNamed key.name key.descriptor = true →
            u'.name = m'.name ∧ ∀ text ∈ u'.descriptor?, text = m'.descriptor)
          (d.membersOf kind) (w.model.membersOf kind)
  /-- If there is none, the entry for the key itself counts, which is then noted. -/
  undeclared : key.keepsName kind = false → h.declarer? kind key = none →
    u'.name = (r.table.newMember? kind key).getD key.name ∧
    ∀ new, r.table.newMember? kind key = some new → ∃ subject, .ambiguousReference
      (MemberRef.mk kind key.owner key.name key.descriptor).text new subject ∈ notes
  kept : key.keepsName kind = true → u'.name = key.name

namespace BuiltFor

variable {r : Renamer} {classpath : ClassPath} {config : Config} {classes : List ClassModel}
  {h : Hierarchy} {kind : MemberKind} {key : MemberKey}

theorem fits (hr : r.BuiltFor classpath config classes h) : h.Fits h.view := by
  obtain ⟨h₀, hReached, -, hBuild⟩ := hr.built
  have hFits := hReached.fits hr.lenient
  obtain ⟨hExtends, -⟩ := build_eq_ok hFits.coherent hr.distinct hBuild
  have hFits' := hFits.extends hExtends
  exact ⟨hFits'.coherent, hFits'.lenient, rfl⟩

theorem of_seeded {t : RenameTable} (hLenient : config.failOnUnresolved = false)
    (hDistinct : (classes.map ClassModel.name).Nodup) (ht : t.Built)
    (hRun : (build t classes config).run (seeded classpath config classes) = (.ok r, h)) :
    r.BuiltFor classpath config classes h := by
  obtain ⟨rfl, -⟩ := groups_of_build hRun
  exact ⟨hLenient, hDistinct, ht, seeded classpath config classes,
    reached_seeded classpath config classes, fun _ hc => node_seeded_of_mem hDistinct hc, hRun⟩

theorem exists_groups (hr : r.BuiltFor classpath config classes h) : ∃ h₀, h₀.Fits h.view ∧
    (∀ c ∈ classes, h₀.nodes[c.name]? = some (some c)) ∧
      Describes r.table (Indexed h₀ classes) (LinkedAbove h₀ classes) r.groups := by
  obtain ⟨h₀, hReached, hSeeds, hBuild⟩ := hr.built
  have hFits := hReached.fits hr.lenient
  obtain ⟨hExtends, -⟩ := build_eq_ok hFits.coherent hr.distinct hBuild
  obtain ⟨-, h₁, hGroups⟩ := groups_of_build hBuild
  exact ⟨h₀, ⟨hFits.coherent, hFits.lenient, hExtends.view_eq.symm⟩, hSeeds,
    describes_of_build hReached hr.lenient hGroups⟩

theorem newMethod?_special (hr : r.BuiltFor classpath config classes h)
    (hName : Text.startsWith '<' key.name = true) : (r.newMethod? key).getD key.name = key.name := by
  obtain ⟨h₀, hFits, -, hDescribes⟩ := hr.exists_groups
  have hOther : ¬ Indexed h₀ classes key := fun hIndexed => by
    obtain ⟨hOrdinary, -⟩ := hIndexed.exists_declaring hFits.coherent hFits.lenient
    rw [hName] at hOrdinary
    cases hOrdinary
  rw [Renamer.newMethod?, hDescribes.other key hOther]
  cases hEntry : r.table.newMethod? key with
  | none => rfl
  | some new => exact hr.table.newMethod?_reserved hName hEntry

theorem newMethod?_undeclared (hr : r.BuiltFor classpath config classes h)
    (hArray : Text.startsWith '[' key.owner = false) (hNone : h.declarer? .method key = none) :
    r.newMethod? key = r.table.newMethod? key := by
  obtain ⟨h₀, hFits, hSeeds, hDescribes⟩ := hr.exists_groups
  refine hDescribes.other key fun hIndexed => ?_
  obtain ⟨-, c, hInput, hOwner, hGrounded, hDeclares⟩ :=
    hIndexed.exists_declaring hFits.coherent hFits.lenient
  have hView : h₀.view key.owner = some c := by
    rcases hInput with hMem | hView
    · rw [hOwner] at hArray ⊢
      exact view_of_node hArray (hSeeds c hMem)
    · exact hView
  have hAnswer : Answers h₀.view (memberOwner .method key) (some c) :=
    answers_methodOwner_self hFits.coherent hFits.lenient hGrounded hView hDeclares
  rw [hFits.view_eq] at hAnswer
  rw [declarer?_of_answers hr.fits hAnswer] at hNone
  cases hNone

theorem newMember?_undeclared (hr : r.BuiltFor classpath config classes h)
    (hKeeps : key.keepsName kind = false) (hNone : h.declarer? kind key = none) :
    r.newMember? kind key = r.table.newMember? kind key := by
  have hArray : Text.startsWith '[' key.owner = false := (Bool.or_eq_false_iff.mp hKeeps).1
  cases kind with
  | field => rfl
  | method => exact hr.newMethod?_undeclared hArray hNone
  | interfaceMethod => exact hr.newMethod?_undeclared hArray hNone

theorem members_of_rewrittenIn {v : View} {d d' : ClassModel} (hd : r.RewrittenIn v d d')
    (kind : MemberKind) :
    List.Forall₂ (fun m m' => m'.name = (r.newMember? kind ⟨d.name, m.name, m.descriptor⟩).getD m.name ∧
        Descriptor.rename r.table.newClass? m.descriptor = .ok m'.descriptor)
      (d.membersOf kind) (d'.membersOf kind) := by
  cases kind with
  | field => exact hd.fields.imp fun _ _ hm => ⟨hm.name, hm.descriptor⟩
  | method => exact hd.methods.imp fun _ _ hm => ⟨hm.name, hm.descriptor⟩
  | interfaceMethod => exact hd.methods.imp fun _ _ hm => ⟨hm.name, hm.descriptor⟩

/-- Also a name that uses keep is that of the declaration, since the declaration keeps it. -/
theorem name_of_declared (hr : r.BuiltFor classpath config classes h) {Bad : Diagnostic → Prop}
    {new : String} (hName : r.NameRewritten h Bad kind key new) {d : ClassModel}
    (hFound : h.declarer? kind key = some d) :
    new = (r.newMember? kind { key with owner := d.name }).getD key.name := by
  cases hKeeps : key.keepsName kind with
  | false => exact hName.declared hKeeps d hFound
  | true =>
    rw [hName.kept hKeeps]
    -- There is no declaration in an array type, so the name is kept because of its angle bracket.
    have hOwner : Text.startsWith '[' key.owner = false := by
      by_contra hArray
      rw [declarer?_of_missing hr.fits (view_of_array h (by simpa using hArray))] at hFound
      cases hFound
    have hSpecial : kind ≠ .field ∧ Text.startsWith '<' key.name = true := by
      simpa [MemberKey.keepsName, hOwner] using hKeeps
    have hSame : (r.newMethod? { key with owner := d.name }).getD key.name = key.name :=
      hr.newMethod?_special hSpecial.2
    cases kind with
    | field => exact absurd rfl hSpecial.1
    | method => exact hSame.symm
    | interfaceMethod => exact hSame.symm

theorem agrees_of_rewritten (hr : r.BuiltFor classpath config classes h) {Bad : Diagnostic → Prop}
    {notes : List Diagnostic} (hNotes : ∀ n, ¬ Bad n → n ∈ notes) {methods : List BootstrapMethod}
    {u u' : MemberUse} (hUse : r.UseRewritten methods h Bad u u') (hMeans : u.Means methods kind key) :
    r.Agrees h notes kind key u' := by
  have hName := hUse.name kind key hMeans
  refine ⟨fun d hFound => ⟨exists_member_of_declarer? hr.fits hFound, ?_⟩, fun hKeeps hNone => ?_,
    hName.kept⟩
  · intro g g' w hExtends hRun hClean
    obtain ⟨-, hRewritten⟩ := rewrittenIn_of_rewrite (hr.fits.extends hExtends) hRun hClean
    refine (members_of_rewrittenIn hRewritten kind).imp fun m m' hm hNamed => ?_
    obtain ⟨hNewName, hNewDescriptor⟩ := hm
    rw [Member.isNamed, Bool.and_eq_true, decide_eq_true_eq, decide_eq_true_eq] at hNamed
    rw [hNamed.1, hNamed.2] at hNewName
    rw [hNamed.2] at hNewDescriptor
    refine ⟨(hr.name_of_declared hName hFound).trans hNewName.symm, fun text hText => ?_⟩
    exact Except.ok.inj ((hUse.rename_descriptor hMeans text hText).symm.trans hNewDescriptor)
  · obtain ⟨hNew, hNoted⟩ := hName.undeclared hKeeps hNone
    rw [hr.newMember?_undeclared hKeeps hNone] at hNew hNoted
    refine ⟨hNew, fun new hEntry => ?_⟩
    obtain ⟨subject, hGood⟩ := hNoted new hEntry
    exact ⟨subject, hNotes _ hGood⟩

/-- Whenever a class is rewritten after the renamer was built, and nothing in it is kept because of a
descriptor, all its uses of members agree with the declarations that are found for them. -/
theorem uses_agree (hr : r.BuiltFor classpath config classes h) {c : ClassModel} {g g' : Hierarchy}
    {w : Rewritten} (hExtends : h.Extends g) (hRun : (r.rewrite c).run g = (.ok w, g'))
    (hClean : ∀ n ∈ w.diagnostics, n.kind ≠ .descriptor) :
    List.Forall₂ (fun u u' => ∀ kind key, u.Means c.bootstrapMethods kind key →
      r.Agrees h w.diagnostics kind key u') c.uses w.model.uses := by
  obtain ⟨-, notes, hClass, hNotes⟩ := rewrite_eq_ok.mp hRun
  have hFits := hr.fits.extends hExtends
  -- Counting what is not noted in the end as bad as well makes every other diagnostic one of `notes`.
  have hYields : Rewriting.Yields (Fits h.view)
      (fun n => n.kind = .descriptor ∨ n ∉ w.diagnostics) ((r.siteOf c).rewriteClass c)
        fun c' => (r.siteOf c).Rewrites h _ c.uses c'.uses :=
    Site.yields_rewriteClass_uses hr.fits (fun _ _ => Or.inl rfl) c
  obtain ⟨-, -, hUses⟩ := hYields ⟨g, []⟩ hFits _ _ hClass
  refine (hUses w.model rfl fun n hn => ?_).imp fun u u' hUse kind key hMeans =>
    hr.agrees_of_rewritten (fun n hGood => ?_) hUse hMeans
  · have hMem : n ∈ w.diagnostics := by
      rw [hNotes]
      exact List.mem_reverse.mpr hn
    rintro (hKind | hNot)
    · exact hClean n hMem hKind
    · exact hNot hMem
  · exact not_not.mp fun hNot => hGood (Or.inr hNot)

end BuiltFor

end Renamer

namespace Capture

theorem uses_agree_call : ∃ (r : Renamer) (h h' : Hierarchy) (w : Rewritten),
    r.BuiltFor ⟨[]⟩ Config.standard [upper "m", caller "m"] h ∧
      (r.rewrite (caller "m")).run h = (.ok w, h') ∧ (∀ n ∈ w.diagnostics, n.kind ≠ .descriptor) ∧
      h.declarer? .method ⟨"B", "m", "()V"⟩ = some (upper "m") ∧
      (caller "m").uses = [.member ⟨.method, "B", "m", "()V"⟩] ∧
      w.model.uses = [.member ⟨.method, "B", "n", "()V"⟩] ∧
      r.Agrees h w.diagnostics .method ⟨"B", "m", "()V"⟩ (.member ⟨.method, "B", "n", "()V"⟩) := by
  obtain ⟨r, h, hBuild, hKnown⟩ := exists_renamer
  have hDistinct : ([upper "m", caller "m"].map ClassModel.name).Nodup := by
    simp [upper, caller]
  have hr : r.BuiltFor ⟨[]⟩ Config.standard [upper "m", caller "m"] h :=
    .of_seeded rfl hDistinct (RenameTable.built_of_parse hKnown.table.parse_eq) hBuild
  have hStart : start.Fits start.view := fits_seeded ⟨[]⟩ [upper "m", caller "m"] rfl
  obtain ⟨hExtends, -, -⟩ := Renamer.build_eq_ok hStart.coherent hDistinct hBuild
  have hFits := hStart.extends hExtends
  obtain ⟨h', hAsk, -⟩ := answers_call h hFits.coherent hFits.lenient hFits.view_eq
  have hRun := hKnown.rewrite_caller hAsk
  have hClean : ∀ n ∈ (⟨caller "n", []⟩ : Rewritten).diagnostics, n.kind ≠ .descriptor :=
    List.forall_mem_nil _
  have hUses : ∀ m, (caller m).uses = [.member ⟨.method, "B", m, "()V"⟩] := fun m => rfl
  have hAgree := hr.uses_agree (.refl hFits.coherent) hRun hClean
  rw [hUses, hUses] at hAgree
  cases hAgree with
  | cons hCall _ =>
    exact ⟨r, h, h', _, hr, hRun, hClean, declarer?_of_answers hFits answers_call, hUses "m",
      hUses "n", hCall _ _ (.member ⟨.method, "B", "m", "()V"⟩)⟩

end Capture

end Renaming
