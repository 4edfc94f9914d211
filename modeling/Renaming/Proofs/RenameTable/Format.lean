import Renaming.Proofs.Descriptor.Functor
import Renaming.Proofs.Text.Name
import Renaming.Proofs.Text.Split
import Renaming.RenameTable.File

/-!
# The format of mapping files

The entries of a mapping file, as they are written in columns. The columns of a line are read as an entry
exactly if they are what an entry is written as.
-/

namespace Renaming

open Renaming.Parser

def IsMemberName (name : String) : Prop := Text.FreeOf ['.', ';', '[', '/', '<', '>'] name

instance (name : String) : Decidable (IsMemberName name) :=
  inferInstanceAs (Decidable (Text.FreeOf _ name))

theorem isMemberName_iff {name : String} : isMemberName name = true ↔ IsMemberName name := by
  have hSome : name.isEmpty = false ↔ name ≠ "" := by
    rw [← Bool.not_eq_true, String.isEmpty_iff]
  simp [isMemberName, IsMemberName, Text.FreeOf, hSome]

/-- A class name has segments between slashes that could be names of members. -/
def IsClassName : String → Prop := Text.Path IsMemberName

/-- What the Boolean check of class names looks at: both ends, pairs of slashes and forbidden
characters. -/
structure ClassChars (cs : List Char) : Prop where
  ne_nil : cs ≠ []
  head? : cs.head? ≠ some '/'
  getLast? : cs.getLast? ≠ some '/'
  segments : hasEmptySegment cs = false
  free : ∀ c ∈ cs, c ∉ ['.', ';', '[', '<', '>']

theorem isClassName_iff_chars {name : String} :
    isClassName name = true ↔ ClassChars name.toList := by
  unfold isClassName
  simp only [Bool.and_eq_true, Bool.not_eq_true', List.isEmpty_eq_false_iff, decide_eq_true_eq,
    List.all_eq_true]
  exact ⟨fun ⟨⟨⟨⟨hSome, hHead⟩, hLast⟩, hSegments⟩, hFree⟩ => ⟨hSome, hHead, hLast, hSegments, hFree⟩,
    fun ⟨hSome, hHead, hLast, hSegments, hFree⟩ => ⟨⟨⟨⟨hSome, hHead⟩, hLast⟩, hSegments⟩, hFree⟩⟩

theorem startsWith_of_isClassName {name : String} (h : isClassName name = true) :
    Text.startsWith '[' name = false :=
  Text.startsWith_of_notMem fun hMem => (isClassName_iff_chars.mp h).free '[' hMem (by decide)

theorem notMem_slash_iff {c : Char} : c ∉ ['.', ';', '[', '/', '<', '>'] ↔
    c ≠ '/' ∧ c ∉ ['.', ';', '[', '<', '>'] := by
  simp only [List.mem_cons, List.not_mem_nil, or_false, not_or]
  tauto

theorem hasEmptySegment_cons {c : Char} {cs : List Char} (hc : c ≠ '/') :
    hasEmptySegment (c :: cs) = hasEmptySegment cs := by
  rw [hasEmptySegment]
  rintro rest h -
  exact hc h

theorem hasEmptySegment_append {front cs : List Char} (hFront : '/' ∉ front) :
    hasEmptySegment (front ++ cs) = hasEmptySegment cs := by
  induction front with
  | nil => rfl
  | cons c front ih =>
    obtain ⟨hc, hFront⟩ := not_or.mp (mt List.mem_cons.mpr hFront)
    rw [List.cons_append, hasEmptySegment_cons (Ne.symm hc), ih hFront]

theorem hasEmptySegment_of_notMem {cs : List Char} (h : '/' ∉ cs) : hasEmptySegment cs = false := by
  rw [← List.append_nil cs, hasEmptySegment_append h]
  rfl

theorem hasEmptySegment_slash {cs : List Char} :
    hasEmptySegment ('/' :: cs) = false ↔ cs.head? ≠ some '/' ∧ hasEmptySegment cs = false := by
  cases cs with
  | nil => simp [hasEmptySegment]
  | cons c cs =>
    by_cases hc : c = '/'
    · subst hc
      simp [hasEmptySegment]
    · rw [hasEmptySegment]
      · simp [hc]
      · rintro rest - ⟨⟩
        exact hc rfl

theorem classChars_segment {segment : String} (hSegment : '/' ∉ segment.toList) :
    ClassChars segment.toList ↔ IsMemberName segment := by
  have hEnds : segment.toList.head? ≠ some '/' ∧ segment.toList.getLast? ≠ some '/' :=
    ⟨fun h => hSegment (List.mem_of_mem_head? h), fun h => hSegment (List.mem_of_mem_getLast? h)⟩
  have hFree : (∀ c ∈ segment.toList, c ∉ ['.', ';', '[', '/', '<', '>']) ↔
      ∀ c ∈ segment.toList, c ∉ ['.', ';', '[', '<', '>'] :=
    forall₂_congr fun c hc => notMem_slash_iff.trans
      (and_iff_right (fun hSlash => hSegment (hSlash ▸ hc)))
  rw [IsMemberName, Text.freeOf_iff_chars, hFree]
  exact ⟨fun h => ⟨h.ne_nil, h.free⟩,
    fun h => ⟨h.1, hEnds.1, hEnds.2, hasEmptySegment_of_notMem hSegment, h.2⟩⟩

theorem getLast?_segments {segment cs : List Char} (hSome : cs ≠ []) :
    (segment ++ '/' :: cs).getLast? = cs.getLast? := by
  obtain ⟨c, cs, rfl⟩ := List.exists_cons_of_ne_nil hSome
  rw [List.getLast?_append_of_ne_nil _ (List.cons_ne_nil _ _), List.getLast?_cons_cons]

theorem classChars_append {segment cs : List Char} (hSegment : '/' ∉ segment) :
    ClassChars (segment ++ '/' :: cs) ↔ ClassChars segment ∧ ClassChars cs := by
  constructor
  · intro h
    obtain ⟨hHead, hPairs⟩ := hasEmptySegment_slash.mp
      ((hasEmptySegment_append hSegment).symm.trans h.segments)
    obtain ⟨hFree, hFree'⟩ := List.forall_mem_append.mp h.free
    have hSome : segment ≠ [] := by
      rintro rfl
      exact h.head? rfl
    have hSome' : cs ≠ [] := by
      rintro rfl
      exact h.getLast? (by simp)
    refine ⟨⟨hSome, ?_, ?_, hasEmptySegment_of_notMem hSegment, hFree⟩, hSome', hHead, ?_, hPairs,
      (List.forall_mem_cons.mp hFree').2⟩
    · exact fun hSlash => hSegment (List.mem_of_mem_head? hSlash)
    · exact fun hSlash => hSegment (List.mem_of_mem_getLast? hSlash)
    · exact fun hSlash => h.getLast? ((getLast?_segments hSome').trans hSlash)
  · rintro ⟨hFront, hBack⟩
    refine ⟨by simp, ?_, ?_, ?_, ?_⟩
    · obtain ⟨d, ds, rfl⟩ := List.exists_cons_of_ne_nil hFront.ne_nil
      exact hFront.head?
    · rw [getLast?_segments hBack.ne_nil]
      exact hBack.getLast?
    · rw [hasEmptySegment_append hSegment, hasEmptySegment_slash]
      exact ⟨hBack.head?, hBack.segments⟩
    · exact List.forall_mem_append.mpr
        ⟨hFront.free, List.forall_mem_cons.mpr ⟨by decide, hBack.free⟩⟩

theorem notMem_of_mem_splitOn {x : Char} {cs segment : List Char}
    (h : segment ∈ cs.splitOn x) : x ∉ segment := by
  induction cs generalizing segment with
  | nil =>
    rw [List.splitOn_nil, List.mem_singleton] at h
    subst h
    exact List.not_mem_nil
  | cons c cs ih =>
    rw [List.splitOn_cons_eq_if_modifyHead] at h
    obtain ⟨first, others, hSplit⟩ := List.exists_cons_of_ne_nil (List.splitOn_ne_nil x cs)
    rw [hSplit] at h ih
    split at h
    · rcases List.mem_cons.mp h with rfl | h
      · exact List.not_mem_nil
      · exact ih h
    · rename_i hc
      rcases List.mem_cons.mp h with rfl | h
      · rw [List.mem_cons, not_or]
        exact ⟨fun hEq => hc (beq_iff_eq.mpr hEq.symm), ih List.mem_cons_self⟩
      · exact ih (List.mem_cons_of_mem _ h)

theorem classChars_intercalate {segments : List String} (hSome : segments ≠ [])
    (hSegments : ∀ s ∈ segments, '/' ∉ s.toList) :
    ClassChars ("/".intercalate segments).toList ↔ ∀ s ∈ segments, IsMemberName s := by
  induction segments with
  | nil => exact absurd rfl hSome
  | cons first segments ih =>
    obtain ⟨hFirst, hSegments⟩ := List.forall_mem_cons.mp hSegments
    cases segments with
    | nil => rw [List.forall_mem_singleton, ← classChars_segment hFirst]; rfl
    | cons second segments =>
      rw [Text.toList_intercalate_cons, classChars_append hFirst, classChars_segment hFirst,
        ih (List.cons_ne_nil _ _) hSegments]
      exact List.forall_mem_cons.symm

/-- The Boolean check accepts the paths of member names. -/
theorem isClassName_iff {name : String} : isClassName name = true ↔ IsClassName name := by
  rw [isClassName_iff_chars]
  constructor
  · intro h
    have hName : name = "/".intercalate ((name.toList.splitOn '/').map String.ofList) := by
      rw [← String.toList_inj, String.toList_intercalate, List.map_map]
      simp [Function.comp_def, List.intercalate_splitOn]
    have hSome : (name.toList.splitOn '/').map String.ofList ≠ [] := by
      simp [List.splitOn_ne_nil]
    refine ⟨_, hSome, (classChars_intercalate hSome fun s hs => ?_).mp (hName ▸ h), hName⟩
    obtain ⟨segment, hSegment, rfl⟩ := List.mem_map.mp hs
    rw [String.toList_ofList]
    exact notMem_of_mem_splitOn hSegment
  · rintro ⟨segments, hSome, hSegments, rfl⟩
    refine (classChars_intercalate hSome fun s hs => ?_).mpr hSegments
    exact fun hSlash => (hSegments s hs).2 '/' hSlash (by decide)

namespace RenameTable

def IsFieldDescriptor (text : String) : Prop :=
  ∃ t : FieldType, (∀ name ∈ t.className?, Descriptor.IsName name) ∧ text = t.text

def IsMethodDescriptor (text : String) : Prop :=
  ∃ d : MethodDescriptor, (∀ name ∈ d.classNames, Descriptor.IsName name) ∧ text = d.text

theorem isFieldDescriptor_iff {text : String} :
    (FieldType.parse text).toOption.isNone = false ↔ IsFieldDescriptor text := by
  have hParse : (∃ t, FieldType.parse text = .ok t) ↔ IsFieldDescriptor text := by
    simp only [FieldType.parse_eq_ok, FieldType.wellFormed_iff, IsFieldDescriptor]
  rw [← hParse]
  cases FieldType.parse text <;> simp [Except.toOption]

theorem isMethodDescriptor_iff {text : String} :
    (MethodDescriptor.parse text).toOption.isNone = false ↔ IsMethodDescriptor text := by
  have hParse : (∃ d, MethodDescriptor.parse text = .ok d) ↔ IsMethodDescriptor text := by
    simp only [MethodDescriptor.parse_eq_ok, MethodDescriptor.wellFormed_iff, IsMethodDescriptor]
  rw [← hParse]
  cases MethodDescriptor.parse text <;> simp [Except.toOption]

theorem IsFieldDescriptor.exists_rename {text : String} (h : IsFieldDescriptor text)
    (f : ClassRenaming) : ∃ new, Descriptor.rename f text = .ok new := by
  obtain ⟨t, ht, rfl⟩ := h
  exact ⟨_, Descriptor.rename_of_parse (x := .field t)
    (Descriptor.parse_eq_ok.mpr ⟨FieldType.wellFormed_iff.mpr ht, rfl⟩)⟩

theorem IsMethodDescriptor.exists_rename {text : String} (h : IsMethodDescriptor text)
    (f : ClassRenaming) : ∃ new, Descriptor.rename f text = .ok new := by
  obtain ⟨d, hd, rfl⟩ := h
  exact ⟨_, Descriptor.rename_of_parse (x := .method d)
    (Descriptor.parse_eq_ok.mpr ⟨MethodDescriptor.wellFormed_iff.mpr hd, rfl⟩)⟩

/-- The columns that an entry is written in. -/
inductive Entry.Written : List String → Entry → Prop
  | ofClass {old new : String} (hOld : IsClassName old) (hNew : IsClassName new) :
    Written ["class", old, new] (.ofClass old new)
  | ofField {owner name descriptor new : String} (hOwner : IsClassName owner)
    (hName : IsMemberName name) (hDescriptor : IsFieldDescriptor descriptor)
    (hNew : IsMemberName new) :
    Written ["field", owner ++ "." ++ name, descriptor, new] (.ofField ⟨owner, name, descriptor⟩ new)
  | ofMethod {owner name descriptor new : String} (hOwner : IsClassName owner)
    (hName : IsMemberName name) (hDescriptor : IsMethodDescriptor descriptor)
    (hNew : IsMemberName new) :
    Written ["method", owner ++ "." ++ name, descriptor, new]
      (.ofMethod ⟨owner, name, descriptor⟩ new)
  -- What a constructor is mapped to is no matter of form: only its own name is consistent.
  | ofSpecial {owner name descriptor new : String} (hOwner : IsClassName owner)
    (hName : name = "<init>" ∨ name = "<clinit>") (hDescriptor : IsMethodDescriptor descriptor) :
    Written ["method", owner ++ "." ++ name, descriptor, new]
      (.ofMethod ⟨owner, name, descriptor⟩ new)

theorem Entry.Written.isClassName {row : List String} {old new : String}
    (h : Entry.Written row (.ofClass old new)) : IsClassName old ∧ IsClassName new := by
  cases h with
  | ofClass hOld hNew => exact ⟨hOld, hNew⟩

theorem splitMember_eq_ok {member owner name : String} :
    splitMember member = .ok (owner, name) ↔
      IsClassName owner ∧ member = owner ++ "." ++ name ∧ '.' ∉ name.toList := by
  have hSplit : Text.splitAtLast? '.' member = some (owner, name) ↔
      member = owner ++ "." ++ name ∧ '.' ∉ name.toList := by
    rw [Text.splitAtLast?_eq_some, ← String.toList_inj]
    simp [String.toList_append]
  rw [← isClassName_iff, ← hSplit, splitMember]
  cases hCut : Text.splitAtLast? '.' member with
  | none => simp
  | some cut =>
    obtain ⟨owner', name'⟩ := cut
    dsimp only
    split
    · rename_i hOwner
      simp only [Except.ok.injEq, Option.some.injEq, Prod.mk.injEq]
      exact ⟨fun ⟨hO, hN⟩ => ⟨hO ▸ hOwner, hO, hN⟩, fun ⟨_, h⟩ => h⟩
    · rename_i hOwner
      simp only [reduceCtorEq, Option.some.injEq, Prod.mk.injEq, false_iff]
      rintro ⟨hO, rfl, -⟩
      exact hOwner hO

theorem notMem_dot {name : String} (h : IsMemberName name) : '.' ∉ name.toList :=
  fun hDot => h.2 '.' hDot (by decide)

theorem notMem_dot_of_special {name : String} (h : name = "<init>" ∨ name = "<clinit>") :
    '.' ∉ name.toList := by
  rcases h with rfl | rfl <;> decide

theorem isSpecialMethod_iff {name : String} :
    isSpecialMethod name = true ↔ name = "<init>" ∨ name = "<clinit>" := by
  rw [isSpecialMethod, Bool.or_eq_true, decide_eq_true_eq, decide_eq_true_eq]

theorem Entry.parse_class {old new : String} {e : Entry} :
    Entry.parse ["class", old, new] = .ok e ↔
      IsClassName old ∧ IsClassName new ∧ e = .ofClass old new := by
  rw [Entry.parse, ← isClassName_iff, ← isClassName_iff, ← and_assoc, ← Bool.and_eq_true]
  split
  · rename_i hNames
    rw [Except.ok.injEq, and_iff_right hNames, eq_comm]
  · rename_i hNames
    exact iff_of_false (by rintro ⟨⟩) fun h => hNames h.1

theorem Entry.parse_field {member descriptor new : String} {e : Entry} :
    Entry.parse ["field", member, descriptor, new] = .ok e ↔
      ∃ owner name, splitMember member = .ok (owner, name) ∧ IsFieldDescriptor descriptor ∧
        (IsMemberName name ∧ IsMemberName new) ∧ e = .ofField ⟨owner, name, descriptor⟩ new := by
  rw [Entry.parse, Outcome.bind_eq_ok, Prod.exists]
  refine exists₂_congr fun owner name => and_congr_right' ?_
  rw [← isFieldDescriptor_iff, ← isMemberName_iff, ← isMemberName_iff]
  dsimp only
  cases (FieldType.parse descriptor).toOption.isNone with
  | true => exact iff_of_false (by rintro ⟨⟩) (by rintro ⟨⟨⟩, -⟩)
  | false =>
    cases isMemberName name <;> cases isMemberName new <;>
      simp [throw, throwThe, MonadExceptOf.throw, bind, Except.bind, pure, Except.pure, eq_comm]

theorem Entry.parse_method {member descriptor new : String} {e : Entry} :
    Entry.parse ["method", member, descriptor, new] = .ok e ↔
      ∃ owner name, splitMember member = .ok (owner, name) ∧ IsMethodDescriptor descriptor ∧
        ((name = "<init>" ∨ name = "<clinit>") ∨ IsMemberName name ∧ IsMemberName new) ∧
          e = .ofMethod ⟨owner, name, descriptor⟩ new := by
  rw [Entry.parse, Outcome.bind_eq_ok, Prod.exists]
  refine exists₂_congr fun owner name => and_congr_right' ?_
  rw [← isMethodDescriptor_iff, ← isSpecialMethod_iff, ← isMemberName_iff, ← isMemberName_iff]
  dsimp only
  cases (MethodDescriptor.parse descriptor).toOption.isNone with
  | true => exact iff_of_false (by rintro ⟨⟩) (by rintro ⟨⟨⟩, -⟩)
  | false =>
    cases isSpecialMethod name <;> cases isMemberName name <;> cases isMemberName new <;>
      simp [throw, throwThe, MonadExceptOf.throw, bind, Except.bind, pure, Except.pure, eq_comm]

theorem Entry.parse_eq_ok {columns : List String} {e : Entry} :
    Entry.parse columns = .ok e ↔ Entry.Written columns e := by
  constructor
  · intro h
    have hParse := h
    unfold Entry.parse at h
    split at h
    · obtain ⟨hOld, hNew, rfl⟩ := Entry.parse_class.mp hParse
      exact .ofClass hOld hNew
    · obtain ⟨owner, name, hMember, hDescriptor, ⟨hName, hNew⟩, rfl⟩ := Entry.parse_field.mp hParse
      obtain ⟨hOwner, rfl, -⟩ := splitMember_eq_ok.mp hMember
      exact .ofField hOwner hName hDescriptor hNew
    · obtain ⟨owner, name, hMember, hDescriptor, hNames, rfl⟩ := Entry.parse_method.mp hParse
      obtain ⟨hOwner, rfl, -⟩ := splitMember_eq_ok.mp hMember
      rcases hNames with hSpecial | ⟨hName, hNew⟩
      · exact .ofSpecial hOwner hSpecial hDescriptor
      · exact .ofMethod hOwner hName hDescriptor hNew
    · split at h <;> cases h
    · cases h
  · intro h
    cases h with
    | ofClass hOld hNew => exact Entry.parse_class.mpr ⟨hOld, hNew, rfl⟩
    | ofField hOwner hName hDescriptor hNew =>
      exact Entry.parse_field.mpr ⟨_, _, splitMember_eq_ok.mpr ⟨hOwner, rfl, notMem_dot hName⟩,
        hDescriptor, ⟨hName, hNew⟩, rfl⟩
    | ofMethod hOwner hName hDescriptor hNew =>
      exact Entry.parse_method.mpr ⟨_, _, splitMember_eq_ok.mpr ⟨hOwner, rfl, notMem_dot hName⟩,
        hDescriptor, Or.inr ⟨hName, hNew⟩, rfl⟩
    | ofSpecial hOwner hName hDescriptor =>
      have hMember := splitMember_eq_ok.mpr ⟨hOwner, rfl, notMem_dot_of_special hName⟩
      exact Entry.parse_method.mpr ⟨_, _, hMember, hDescriptor, Or.inl hName, rfl⟩

end RenameTable

end Renaming
