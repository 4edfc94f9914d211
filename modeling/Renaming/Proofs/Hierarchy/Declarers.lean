import Renaming.Proofs.Hierarchy.Fields

/-!
# What references to members mean

A reference means the declaration that is found for it, if there is one. In a lenient hierarchy this
is a matter of the view alone: what was asked before makes no difference.
-/

namespace Renaming

open Effectful

/-- The members of a class that references of the given kind can mean. -/
def ClassModel.membersOf (c : ClassModel) (kind : MemberKind) : List Member :=
  match kind with
  | .field => c.fields
  | .method | .interfaceMethod => c.methods

namespace Hierarchy

variable {v : View} {h h' : Hierarchy} {kind : MemberKind} {key : MemberKey}

def memberOwner (kind : MemberKind) (key : MemberKey) : Exploring (Option ClassModel) :=
  match kind with
  | .field => fieldOwner key
  | .method | .interfaceMethod => methodOwner key

/-- The class whose declaration is found for a reference. There is none if the search fails, as it does
above a cycle. -/
def declarer? (h : Hierarchy) (kind : MemberKind) (key : MemberKey) : Option ClassModel :=
  ((memberOwner kind key).run h).1.toOption.join

theorem declarer?_of_ok {found : Option ClassModel}
    (hRun : ((memberOwner kind key).run h).1 = .ok found) : h.declarer? kind key = found := by
  rw [declarer?, hRun]
  rfl

theorem declarer?_of_error {e : Failure} (hRun : ((memberOwner kind key).run h).1 = .error e) :
    h.declarer? kind key = none := by
  rw [declarer?, hRun]
  rfl

/-- The search comes to the same end in all hierarchies with one view, or fails because of a cycle. -/
theorem memberOwner_spec (hh : h.Fits v) (kind : MemberKind) (key : MemberKey) :
    (∃ found, Answers v (memberOwner kind key) found ∧
        ∀ d ∈ found, ∃ m ∈ d.membersOf kind, m.isNamed key.name key.descriptor = true) ∨
      ∃ through, ((memberOwner kind key).run h).1 = .error (.hierarchyCycle through) := by
  obtain ⟨hc, hLenient, rfl⟩ := hh
  have hMethod : (∃ found, Answers h.view (methodOwner key) found ∧
      ∀ d ∈ found, ∃ m ∈ d.methods, m.isNamed key.name key.descriptor = true) ∨
        ∃ through, ((methodOwner key).run h).1 = .error (.hierarchyCycle through) := by
    rcases methodOwner_spec hc hLenient key with
      ⟨order, h', hGrounded, hOrder, -, -⟩ | ⟨through, h', hRun, -⟩
    · refine Or.inl ⟨_, answers_methodOwner hGrounded hOrder, fun d hd => ?_⟩
      obtain ⟨-, -, -, -, -, hDeclares, -⟩ := View.firstDeclaring_eq_some hd
      exact List.find?_isSome.mp hDeclares
    · exact Or.inr ⟨through, by rw [hRun]⟩
  cases kind with
  | field =>
    rcases fieldOwner_spec hc hLenient key with
      ⟨cs, h', hGrounded, hOrder, -, -⟩ | ⟨through, h', hRun, -⟩
    · refine Or.inl ⟨_, answers_fieldOwner hGrounded hOrder, fun d hd => ?_⟩
      have hDeclares := List.find?_some (Option.mem_def.mp hd)
      exact List.find?_isSome.mp hDeclares
    · exact Or.inr ⟨through, congrArg Prod.fst hRun⟩
  | method => exact hMethod
  | interfaceMethod => exact hMethod

theorem declarer?_of_answers (hh : h.Fits v) {found : Option ClassModel}
    (hAnswer : Answers v (memberOwner kind key) found) : h.declarer? kind key = found := by
  obtain ⟨h₁, hRun, -⟩ := hAnswer h hh.coherent hh.lenient hh.view_eq
  exact declarer?_of_ok (congrArg Prod.fst hRun)

theorem declarer?_of_missing (hh : h.Fits v) (hView : v key.owner = none) :
    h.declarer? kind key = none := by
  obtain ⟨hGrounded, hAncestors⟩ := View.ancestors_of_top (View.parents_of_none hView)
  have hMethod : Answers v (methodOwner key) none :=
    answers_methodOwner hGrounded ⟨[], [], hAncestors, .missing hView, rfl⟩
  have hField : Answers v (fieldOwner key) none :=
    answers_fieldOwner hGrounded (.missing hView .done)
  cases kind with
  | field => exact declarer?_of_answers hh hField
  | method => exact declarer?_of_answers hh hMethod
  | interfaceMethod => exact declarer?_of_answers hh hMethod

theorem declarer?_congr (hh : h.Fits v) (hh' : h'.Fits v) :
    h.declarer? kind key = h'.declarer? kind key := by
  rcases memberOwner_spec hh kind key with ⟨found, hAnswer, -⟩ | ⟨through, hRun⟩
  · rw [declarer?_of_answers hh hAnswer, declarer?_of_answers hh' hAnswer]
  · rcases memberOwner_spec hh' kind key with ⟨found, hAnswer, -⟩ | ⟨through', hRun'⟩
    · rw [declarer?_of_answers hh hAnswer, declarer?_of_answers hh' hAnswer]
    · rw [declarer?_of_error hRun, declarer?_of_error hRun']

theorem exists_member_of_declarer? (hh : h.Fits v) {d : ClassModel}
    (hFound : h.declarer? kind key = some d) :
    ∃ m ∈ d.membersOf kind, m.isNamed key.name key.descriptor = true := by
  rcases memberOwner_spec hh kind key with ⟨found, hAnswer, hDeclares⟩ | ⟨through, hRun⟩
  · rw [declarer?_of_answers hh hAnswer] at hFound
    exact hDeclares d hFound
  · rw [declarer?_of_error hRun] at hFound
    cases hFound

end Hierarchy

end Renaming
