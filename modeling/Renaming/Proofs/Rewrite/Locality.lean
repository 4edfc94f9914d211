import Renaming.Proofs.Rewrite.Lenient
import Renaming.Proofs.Rewrite.Malformed

/-!
# Failures stay local

In a lenient hierarchy every field, method and attribute of a class is rewritten as if it were the only
one: what becomes of it, and what is noted about it, depends neither on the others nor on what was asked
before. One with a malformed descriptor is kept as it is, which is noted once, and nothing else changes.
-/

namespace Renaming

open Effectful Hierarchy

namespace Rewriting

variable {v : View} {α β : Type} {x : Rewriting α} {f : α → Rewriting β}

/-- Whenever the step is taken in a lenient hierarchy with the view `v`, it ends in `r` and notes `notes`,
the newest first. -/
def Ends (v : View) (x : Rewriting α) (r : Except Failure α) (notes : List Diagnostic) : Prop :=
  ∀ s : RewriteState, s.hierarchy.Fits v →
    ∃ h', h'.Fits v ∧ x.run s = (r, ⟨h', notes ++ s.newestDiagnostics⟩)

theorem ends_const (r : Except Failure α) : Ends v (fun s => (r, s)) r [] :=
  fun s hs => ⟨s.hierarchy, hs, rfl⟩

theorem Ends.bind {a : α} {r : Except Failure β} {notes notes' : List Diagnostic}
    (hx : Ends v x (.ok a) notes) (hf : Ends v (f a) r notes') :
    Ends v (x >>= f) r (notes' ++ notes) := by
  intro s hs
  obtain ⟨h₁, hs₁, hFirst⟩ := hx s hs
  obtain ⟨h₂, hs₂, hSecond⟩ := hf ⟨h₁, notes ++ s.newestDiagnostics⟩ hs₁
  refine ⟨h₂, hs₂, ?_⟩
  rw [bind_run_of_ok hFirst, hSecond, List.append_assoc]

theorem Ends.bind_error {e : Failure} {notes : List Diagnostic} (hx : Ends v x (.error e) notes) :
    Ends v (x >>= f) (.error e) notes := by
  intro s hs
  obtain ⟨h₁, hs₁, hFirst⟩ := hx s hs
  exact ⟨h₁, hs₁, bind_run_of_error hFirst⟩

theorem Ends.map {a : α} {notes : List Diagnostic} (g : α → β) (hx : Ends v x (.ok a) notes) :
    Ends v (x >>= fun a => pure (g a)) (.ok (g a)) notes := by
  change Ends v _ _ ([] ++ notes)
  exact hx.bind (ends_const (.ok (g a)))

theorem ends_orKeep {a old : α} {notes : List Diagnostic} (hx : Ends v x (.ok a) notes) :
    Ends v (orKeep old x) (.ok a) notes := by
  intro s hs
  obtain ⟨h₁, hs₁, hStep⟩ := hx s hs
  exact ⟨h₁, hs₁, tryCatch_run.mpr (Or.inl ⟨a, hStep, rfl⟩)⟩

theorem ends_keep {old : α} {subject text : String} {notes : List Diagnostic}
    (hx : Ends v x (.error (.descriptor subject text)) notes) :
    Ends v (orKeep old x) (.ok old) (.memberKept subject text :: notes) := by
  intro s hs
  obtain ⟨h₁, hs₁, hStep⟩ := hx s hs
  exact ⟨h₁, hs₁, tryCatch_run.mpr (Or.inr ⟨_, _, hStep, rfl⟩)⟩

theorem ends_ask {q : Exploring α} (hq : Settled v q) : ∃ r, Ends v (ask q) r [] := by
  obtain ⟨r, T, hSettles⟩ := hq
  refine ⟨r, fun s hs => ?_⟩
  obtain ⟨h', hRun, hExtends, -⟩ := hSettles s.hierarchy hs
  refine ⟨h', hs.extends hExtends, ?_⟩
  change ask q s = _
  rw [ask, hRun]
  rfl

theorem ends_askDeclaration {q : Exploring (Option ClassModel)} (hq : Settled v q) :
    ∃ r, Ends v (askDeclaration q) r [] := by
  obtain ⟨r, T, hSettles⟩ := hq
  refine ⟨declared r, fun s hs => ?_⟩
  obtain ⟨h', hRun, hExtends, -⟩ := hSettles s.hierarchy hs
  refine ⟨h', hs.extends hExtends, ?_⟩
  change askDeclaration q s = _
  rw [askDeclaration, hRun]
  cases r with
  | ok a => rfl
  | error e => cases e <;> rfl

theorem Composed.ends {h₀ : Hierarchy} (hh₀ : h₀.Fits v) (hx : Composed x) :
    ∃ r notes, Ends v x r notes := by
  induction hx with
  | pure a => exact ⟨_, _, ends_const (.ok a)⟩
  | bind _ _ ih ih' =>
    obtain ⟨r, notes, hFirst⟩ := ih
    cases r with
    | error e => exact ⟨_, _, hFirst.bind_error⟩
    | ok a =>
      obtain ⟨r, notes', hSecond⟩ := ih' a
      exact ⟨_, _, hFirst.bind hSecond⟩
  | malformed subject text => exact ⟨_, _, ends_const (.error (.descriptor subject text))⟩
  | @note d _ => exact ⟨.ok (), [d], fun s hs => ⟨s.hierarchy, hs, rfl⟩⟩
  | lookup name =>
    obtain ⟨r, hEnds⟩ := ends_ask ⟨_, _, settles_lookup (v := v) name⟩
    exact ⟨r, _, hEnds⟩
  | methodOwner key =>
    obtain ⟨r, hEnds⟩ := ends_askDeclaration (settled_methodOwner hh₀ key)
    exact ⟨r, _, hEnds⟩
  | fieldOwner key =>
    obtain ⟨r, hEnds⟩ := ends_askDeclaration (settled_fieldOwner hh₀ key)
    exact ⟨r, _, hEnds⟩
  | orKeep old hx ih =>
    obtain ⟨r, notes, hStep⟩ := ih
    cases r with
    | ok a => exact ⟨_, _, ends_orKeep hStep⟩
    | error e =>
      obtain ⟨h₁, -, hRun⟩ := hStep ⟨h₀, []⟩ hh₀
      obtain ⟨subject, text, rfl⟩ := hx.malformed_of_error hh₀ hRun
      exact ⟨_, _, ends_keep hStep⟩

theorem ends_mapM {as : List α} {ps : List (β × List Diagnostic)}
    (h : List.Forall₂ (fun a p => Ends v (f a) (.ok p.1) p.2.reverse) as ps) :
    Ends v (as.mapM f) (.ok (ps.map Prod.fst)) (ps.flatMap Prod.snd).reverse := by
  induction h with
  | nil => exact ends_const _
  | @cons a p as ps hHead _ ih =>
    rw [List.mapM_cons, List.flatMap_cons, List.reverse_append]
    exact hHead.bind (ih.map _)

end Rewriting

open Rewriting
open Mention (Malformed)

/-- What becomes of `old` when it is rewritten by itself at the site, whatever happened before, together
with what is noted about it, in order. `B` says which texts in it are malformed. -/
inductive Site.Isolated {α : Type} (s : Site) (v : View) (B : String → Prop) (step : Rewriting α)
    (old : α) : α × List Diagnostic → Prop
  /-- Nothing in it is malformed, and it is rewritten as a whole. -/
  | rewritten {new : α} {notes : List Diagnostic} (hStep : Ends v step (.ok new) notes)
    (hSound : ∀ text, ¬ B text) (hNotes : ∀ d ∈ notes, ¬ d.ReportsKept) :
    Isolated s v B step old (new, notes.reverse)
  /-- It is kept because of a malformed text, and this is noted, once and last. -/
  | kept {text : String} {notes : List Diagnostic}
    (hStep : Ends v step (.error (.descriptor s.subject text)) notes) (hText : B text)
    (hNotes : ∀ d ∈ notes, ¬ d.ReportsKept) :
    Isolated s v B step old (old, notes.reverse ++ [.memberKept s.subject text])

/-- The members and attributes of a class after rewriting, each with what was noted about it. -/
structure Pieces where
  fields : List (Member × List Diagnostic)
  methods : List (Member × List Diagnostic)
  attributes : List (Attribute × List Diagnostic)

namespace Pieces

/-- The class `c` with the pieces in the places of its members and attributes. -/
def assemble (p : Pieces) (s : Site) (c : ClassModel) : ClassModel :=
  { c with
    name := s.className c.name
    superName := c.superName.map s.className
    interfaces := c.interfaces.map s.className
    fields := p.fields.map Prod.fst
    methods := p.methods.map Prod.fst
    attributes := p.attributes.map Prod.fst }

def diagnostics (p : Pieces) : List Diagnostic :=
  p.fields.flatMap Prod.snd ++ p.methods.flatMap Prod.snd ++ p.attributes.flatMap Prod.snd

/-- The pieces are what becomes of the fields, the methods and the attributes of the class one by one. -/
structure Of (p : Pieces) (s : Site) (v : View) (c : ClassModel) : Prop where
  fields : List.Forall₂ (fun m => (s.atMember .field m).Isolated v (Malformed (m.mentions .ofField))
    ((s.atMember .field m).field m) m) c.fields p.fields
  methods : List.Forall₂ (fun m => (s.atMember .method m).Isolated v
    (Malformed (m.mentions .ofMethod)) ((s.atMember .method m).method m) m) c.methods p.methods
  attributes : List.Forall₂ (fun a => s.Isolated v (Malformed (a.mentions .ofClass))
    (s.rewriteAttribute .ofClass a) a) c.attributes p.attributes

end Pieces

namespace Site

variable {s : Site} {v : View} {h₀ : Hierarchy} {α : Type} {x : Rewriting α} {B : String → Prop}
  {old : α}

theorem Isolated.ends {p : α × List Diagnostic} (h : s.Isolated v B x old p) :
    Ends v (orKeep old x) (.ok p.1) p.2.reverse := by
  cases h with
  | rewritten hStep _ _ =>
    rw [List.reverse_reverse]
    exact ends_orKeep hStep
  | kept hStep _ _ =>
    rw [List.reverse_append, List.reverse_reverse]
    exact ends_keep hStep

theorem exists_isolated (hh₀ : h₀.Fits v) (hx : Composed x) (hChecks : s.Checks B x) (old : α) :
    ∃ p, s.Isolated v B x old p := by
  obtain ⟨r, notes, hStep⟩ := hx.ends hh₀
  obtain ⟨h₁, -, hRun⟩ := hStep ⟨h₀, []⟩ hh₀
  obtain ⟨notes', hSame, hNotes⟩ := hChecks.notes hRun
  rw [List.append_nil, List.append_nil] at hSame
  subst hSame
  cases r with
  | ok new => exact ⟨_, .rewritten hStep (hChecks.passes hRun) hNotes⟩
  | error e =>
    obtain ⟨subject, text, rfl⟩ := hx.malformed_of_error hh₀ hRun
    obtain ⟨rfl, hText⟩ := hChecks.fails hRun
    exact ⟨_, .kept hStep hText hNotes⟩

theorem exists_isolatedEach {β : Type} (hh₀ : h₀.Fits v) {site : β → Site} {step : β → Rewriting β}
    {B : β → String → Prop} (hStep : ∀ b, Composed (step b))
    (hChecks : ∀ b, (site b).Checks (B b) (step b)) (bs : List β) :
    ∃ ps, List.Forall₂ (fun b => (site b).Isolated v (B b) (step b) b) bs ps := by
  choose p hp using fun b => exists_isolated hh₀ (hStep b) (hChecks b) b
  refine ⟨bs.map p, ?_⟩
  rw [List.forall₂_map_right_iff]
  exact List.forall₂_same.mpr fun b _ => hp b

end Site

/-- The class with what stands from place `i` to before place `k` in the list of its fields replaced. -/
def ClassModel.replaceFields (c : ClassModel) (i k : Nat) (ms : List Member) : ClassModel :=
  { c with fields := c.fields.take i ++ ms ++ c.fields.drop k }

def ClassModel.replaceMethods (c : ClassModel) (i k : Nat) (ms : List Member) : ClassModel :=
  { c with methods := c.methods.take i ++ ms ++ c.methods.drop k }

namespace Pieces

variable {p : Pieces} {s : Site} {v : View} {c : ClassModel} {h₀ : Hierarchy}

theorem Of.ends (hp : p.Of s v c) :
    Ends v (s.rewriteClass c) (.ok (p.assemble s c)) p.diagnostics.reverse := by
  have hFields := ends_mapM (hp.fields.imp fun m q h => h.ends)
  have hMethods := ends_mapM (hp.methods.imp fun m q h => h.ends)
  have hAttributes := ends_mapM (hp.attributes.imp fun a q h => h.ends)
  rw [diagnostics, List.reverse_append, List.reverse_append, ← List.append_assoc]
  exact hFields.bind (hMethods.bind (hAttributes.map _))

theorem exists_fields (hh₀ : h₀.Fits v) (s : Site) (ms : List Member) :
    ∃ ps, List.Forall₂ (fun m => (s.atMember .field m).Isolated v (Malformed (m.mentions .ofField))
      ((s.atMember .field m).field m) m) ms ps :=
  Site.exists_isolatedEach hh₀ (fun _ => Site.composed_field _) (fun _ => Site.checks_field _) ms

theorem exists_methods (hh₀ : h₀.Fits v) (s : Site) (ms : List Member) :
    ∃ ps, List.Forall₂ (fun m => (s.atMember .method m).Isolated v
      (Malformed (m.mentions .ofMethod)) ((s.atMember .method m).method m) m) ms ps :=
  Site.exists_isolatedEach hh₀ (fun _ => Site.composed_method _) (fun _ => Site.checks_method _) ms

theorem exists_of (hh₀ : h₀.Fits v) (s : Site) (c : ClassModel) : ∃ p : Pieces, p.Of s v c := by
  obtain ⟨fields, hFields⟩ := exists_fields hh₀ s c.fields
  obtain ⟨methods, hMethods⟩ := exists_methods hh₀ s c.methods
  obtain ⟨attributes, hAttributes⟩ := Site.exists_isolatedEach hh₀
    (fun _ => Site.composed_rewriteAttribute .ofClass _)
    (fun _ => Site.checks_rewriteAttribute (s := s) .ofClass _) c.attributes
  exact ⟨⟨fields, methods, attributes⟩, hFields, hMethods, hAttributes⟩

end Pieces

namespace Renamer

variable {r : Renamer} {c : ClassModel} {v : View} {h : Hierarchy}

theorem rewrite_of_pieces {p : Pieces} (hp : p.Of (r.siteOf c) v c)
    (hAcyclic : r.groups.cyclic[c.name]? = none) (hh : h.Fits v) : ∃ h',
    (r.rewrite c).run h = (.ok ⟨p.assemble (r.siteOf c) c, p.diagnostics⟩, h') := by
  obtain ⟨h', -, hRun⟩ := hp.ends ⟨h, []⟩ hh
  rw [List.append_nil] at hRun
  exact ⟨h', rewrite_eq_ok.mpr ⟨hAcyclic, _, hRun, List.reverse_reverse _ |>.symm⟩⟩

/-- Replacing fields of a class changes these fields of the rewritten class and nothing else. -/
theorem rewrite_replaceFields {p : Pieces} (hp : p.Of (r.siteOf c) v c)
    (hAcyclic : r.groups.cyclic[c.name]? = none) (hh : h.Fits v) (i k : Nat) (ms : List Member) :
    ∃ w h' ms', (r.rewrite (c.replaceFields i k ms)).run h = (.ok w, h') ∧
      ms'.length = ms.length ∧ w.model = (p.assemble (r.siteOf c) c).replaceFields i k ms' := by
  obtain ⟨ps, hFields⟩ := Pieces.exists_fields hh (r.siteOf c) ms
  let q : Pieces := { p with fields := p.fields.take i ++ ps ++ p.fields.drop k }
  have hq : q.Of (r.siteOf c) v (c.replaceFields i k ms) :=
    ⟨List.rel_append (List.rel_append (List.forall₂_take i hp.fields) hFields)
        (List.forall₂_drop k hp.fields), hp.methods, hp.attributes⟩
  obtain ⟨h', hRun⟩ := rewrite_of_pieces (c := c.replaceFields i k ms) hq hAcyclic hh
  refine ⟨_, h', ps.map Prod.fst, hRun, by rw [List.length_map, hFields.length_eq], ?_⟩
  change q.assemble (r.siteOf c) (c.replaceFields i k ms) = _
  simp [q, Pieces.assemble, ClassModel.replaceFields]

theorem rewrite_replaceMethods {p : Pieces} (hp : p.Of (r.siteOf c) v c)
    (hAcyclic : r.groups.cyclic[c.name]? = none) (hh : h.Fits v) (i k : Nat) (ms : List Member) :
    ∃ w h' ms', (r.rewrite (c.replaceMethods i k ms)).run h = (.ok w, h') ∧
      ms'.length = ms.length ∧ w.model = (p.assemble (r.siteOf c) c).replaceMethods i k ms' := by
  obtain ⟨ps, hMethods⟩ := Pieces.exists_methods hh (r.siteOf c) ms
  let q : Pieces := { p with methods := p.methods.take i ++ ps ++ p.methods.drop k }
  have hq : q.Of (r.siteOf c) v (c.replaceMethods i k ms) :=
    ⟨hp.fields, List.rel_append (List.rel_append (List.forall₂_take i hp.methods) hMethods)
        (List.forall₂_drop k hp.methods), hp.attributes⟩
  obtain ⟨h', hRun⟩ := rewrite_of_pieces (c := c.replaceMethods i k ms) hq hAcyclic hh
  refine ⟨_, h', ps.map Prod.fst, hRun, by rw [List.length_map, hMethods.length_eq], ?_⟩
  change q.assemble (r.siteOf c) (c.replaceMethods i k ms) = _
  simp [q, Pieces.assemble, ClassModel.replaceMethods]

/-- A class whose supertypes have no cycle is rewritten in a lenient hierarchy whatever is malformed in
it, piece by piece, and replacing some of its fields or methods does not change what becomes of the rest
of it, also if more was asked in the meantime. -/
theorem rewrite_isolates {classpath : ClassPath} {config : Config}
    (hReached : Reached classpath config h) (hLenient : config.failOnUnresolved = false)
    (hAcyclic : r.groups.cyclic[c.name]? = none) :
    ∃ w h', (r.rewrite c).run h = (.ok w, h') ∧
      (∃ p : Pieces, p.Of (r.siteOf c) h.view c ∧
        w = ⟨p.assemble (r.siteOf c) c, p.diagnostics⟩) ∧
      ∀ g : Hierarchy, g.Fits h.view → ∀ i k ms,
        (∃ w' g' ms', (r.rewrite (c.replaceFields i k ms)).run g = (.ok w', g') ∧
          ms'.length = ms.length ∧ w'.model = w.model.replaceFields i k ms') ∧
        ∃ w' g' ms', (r.rewrite (c.replaceMethods i k ms)).run g = (.ok w', g') ∧
          ms'.length = ms.length ∧ w'.model = w.model.replaceMethods i k ms' := by
  have hh := hReached.fits hLenient
  obtain ⟨p, hp⟩ := Pieces.exists_of hh (r.siteOf c) c
  obtain ⟨h', hRun⟩ := rewrite_of_pieces hp hAcyclic hh
  refine ⟨_, h', hRun, ⟨p, hp, rfl⟩, fun g hg i k ms => ⟨?_, ?_⟩⟩
  · exact rewrite_replaceFields hp hAcyclic hg i k ms
  · exact rewrite_replaceMethods hp hAcyclic hg i k ms

end Renamer

namespace SpoiltField

def spoilt (name : String) : Member := ⟨2, name, "I", [.plain (.annotations .visible [⟨"Q", []⟩])]⟩

def holder (name : String) : ClassModel :=
  ⟨0, 52, 0x21, "A", none, [], [⟨2, name, "I", []⟩, spoilt "y"], [], []⟩

/-- A table that gives the field `x` the name of the field `y`, and that one another name. -/
def shiftingTable : RenameTable :=
  (RenameTable.empty.withField ⟨"A", "x", "I"⟩ "y").withField ⟨"A", "y", "I"⟩ "z"

theorem newField?_first (key : MemberKey) :
    (RenameTable.empty.withField ⟨"A", "x", "I"⟩ "y").newField? key =
      if ⟨"A", "x", "I"⟩ = key then some "y" else none := by
  rw [RenameTable.newField?_withField (RenameTable.newField?_empty _), RenameTable.newField?_empty]

theorem newField?_shiftingTable (key : MemberKey) : shiftingTable.newField? key =
    if ⟨"A", "y", "I"⟩ = key then some "z" else if ⟨"A", "x", "I"⟩ = key then some "y" else none := by
  rw [shiftingTable, RenameTable.newField?_withField (newField?_first _), newField?_first]

variable {s : Site} {st : RewriteState} {r : Renamer}

theorem field_run {name new : String}
    (hNew : s.renamer.newField? ⟨s.owner, name, "I"⟩ = some new) :
    (s.field ⟨2, name, "I", []⟩).run st = (.ok ⟨2, new, "I", []⟩, st) := by
  have hDescriptor : s.descriptor "I" = pure "I" := by
    rw [Site.descriptor]
    rfl
  rw [Site.field, hDescriptor, pure_bind, Site.rewriteAttributes, pure_bind, hNew]
  rfl

theorem spoilt_run (name : String) :
    (s.field (spoilt name)).run st = (.error (.descriptor s.subject "Q"), st) := by
  have hDescriptor : s.descriptor "I" = pure "I" := by
    rw [Site.descriptor]
    rfl
  have hMalformed : s.descriptor "Q" = throw (.descriptor s.subject "Q") := by
    rw [Site.descriptor]
    rfl
  have hElements : s.elementValues (objectType? "Q") [] = pure [] := by
    rw [Site.elementValues]
  have hAnnotated : s.annotated ⟨"Q", []⟩ = throw (.descriptor s.subject "Q") := by
    rw [Site.annotated, hElements, hMalformed]
    rfl
  rw [Site.field, spoilt, hDescriptor, pure_bind, Site.rewriteAttributes, Site.rewriteAttribute,
    Site.plainAttribute, List.mapM_cons, hAnnotated]
  rfl

/-- The field `x` is renamed to `y`, and the spoilt field of that name is kept beside it. -/
theorem rewrite_run (hTable : r.table = shiftingTable) (hCyclic : r.groups.cyclic = ∅)
    (h : Hierarchy) : (r.rewrite (holder "x")).run h =
      (.ok ⟨holder "y", [.memberKept "A.y:I" "Q"]⟩, h) := by
  have hAcyclic : r.groups.cyclic[(holder "x").name]? = none := by
    rw [hCyclic]
    simp
  have hName : r.className "A" = "A" := by
    simp [Renamer.className, hTable, ClassRenaming.apply, shiftingTable]
  have hNew : r.newField? ⟨"A", "x", "I"⟩ = some "y" := by
    rw [Renamer.newField?, hTable, newField?_shiftingTable]
    simp
  have hField : (orKeep ⟨2, "x", "I", []⟩ (((r.siteOf (holder "x")).atMember .field
      ⟨2, "x", "I", []⟩).field ⟨2, "x", "I", []⟩)).run ⟨h, []⟩ =
        (.ok ⟨2, "y", "I", []⟩, ⟨h, []⟩) :=
    tryCatch_run.mpr (Or.inl ⟨_, field_run hNew, rfl⟩)
  have hSpoilt : (orKeep (spoilt "y") (((r.siteOf (holder "x")).atMember .field
      (spoilt "y")).field (spoilt "y"))).run ⟨h, []⟩ =
        (.ok (spoilt "y"), ⟨h, [.memberKept "A.y:I" "Q"]⟩) :=
    tryCatch_run.mpr (Or.inr ⟨_, _, spoilt_run "y", rfl⟩)
  have hFields : ((holder "x").fields.mapM fun m => orKeep m
      (((r.siteOf (holder "x")).atMember .field m).field m)).run ⟨h, []⟩ =
        (.ok [⟨2, "y", "I", []⟩, spoilt "y"], ⟨h, [.memberKept "A.y:I" "Q"]⟩) :=
    mapM_cons_run.mpr ⟨_, _, [spoilt "y"], hField,
      mapM_cons_run.mpr ⟨_, _, [], hSpoilt, rfl, rfl⟩, rfl⟩
  refine Renamer.rewrite_eq_ok.mpr ⟨hAcyclic, [.memberKept "A.y:I" "Q"], ?_, rfl⟩
  rw [Site.rewriteClass, bind_run_of_ok hFields]
  exact congrArg (fun name => (Except.ok { holder "y" with name }, _)) hName

theorem exists_renamer : ∃ r h, (Renamer.build shiftingTable [holder "x"] Config.standard).run
    (seeded ⟨[]⟩ Config.standard [holder "x"]) = (.ok r, h) ∧
      r.table = shiftingTable ∧ r.groups.cyclic = ∅ := by
  refine Renamer.exists_build_alone (by decide : Text.startsWith '[' "A" = false) rfl rfl ?_
  intro r hTable
  rw [Renamer.checkMembers_eq_ok]
  refine ⟨?_, List.nodup_nil⟩
  simp [holder, spoilt, Renamer.fieldTarget, Renamer.newField?, hTable, newField?_shiftingTable]

theorem rewrite_isolates_spoilt : ∃ (r : Renamer) (h h' : Hierarchy),
    Reached ⟨[]⟩ Config.standard h ∧ r.groups.cyclic[(holder "x").name]? = none ∧
      (r.rewrite (holder "x")).run h = (.ok ⟨holder "y", [.memberKept "A.y:I" "Q"]⟩, h') ∧
      (∃ p : Pieces, p.Of (r.siteOf (holder "x")) h.view (holder "x") ∧
        (⟨holder "y", [.memberKept "A.y:I" "Q"]⟩ : Rewritten) =
          ⟨p.assemble (r.siteOf (holder "x")) (holder "x"), p.diagnostics⟩) ∧
      ∃ w h'' ms', (r.rewrite ((holder "x").replaceFields 1 2 [])).run h = (.ok w, h'') ∧
        ms'.length = 0 ∧ w.model = (holder "y").replaceFields 1 2 ms' := by
  obtain ⟨r, -, -, hTable, hCyclic⟩ := exists_renamer
  have hReached := reached_seeded ⟨[]⟩ Config.standard [holder "x"]
  have hAcyclic : r.groups.cyclic[(holder "x").name]? = none := by
    rw [hCyclic]
    simp
  have hRun := rewrite_run hTable hCyclic (seeded ⟨[]⟩ Config.standard [holder "x"])
  obtain ⟨w, h', hRewrite, hPieces, hOther⟩ := Renamer.rewrite_isolates hReached rfl hAcyclic
  rw [hRun] at hRewrite
  cases hRewrite
  exact ⟨r, _, _, hReached, hAcyclic, hRun, hPieces, (hOther _ (hReached.fits rfl) 1 2 []).1⟩

end SpoiltField

end Renaming
