import Renaming.Proofs.Outcome
import Renaming.Proofs.Text.Parser
import Renaming.Signature.Parse

/-!
# Parsing and writing types of signatures

A reference type is parsed exactly from what a well-formed one is written as. The depth that ties
the parser to itself only has to reach the length of the type.
-/

namespace Renaming.TypeSignature

open Renaming.Parser

def isReference : TypeSignature → Bool
  | base _ => false
  | _ => true

mutual

/-- All names can stand in a signature, and arguments are reference types. -/
def WellFormed : TypeSignature → Prop
  | base _ => True
  | classType ⟨⟨name, arguments⟩, inner⟩ =>
    Token endsClassName name ∧ ArgumentsWellFormed arguments ∧ InnerWellFormed inner
  | var name => Token endsIdentifier name
  | array element => element.WellFormed

def ArgumentsWellFormed : List (TypeArgument TypeSignature) → Prop
  | [] => True
  | .any :: rest => ArgumentsWellFormed rest
  | .invariant type :: rest =>
    (type.isReference = true ∧ type.WellFormed) ∧ ArgumentsWellFormed rest
  | .upper bound :: rest =>
    (bound.isReference = true ∧ bound.WellFormed) ∧ ArgumentsWellFormed rest
  | .lower bound :: rest =>
    (bound.isReference = true ∧ bound.WellFormed) ∧ ArgumentsWellFormed rest

def InnerWellFormed : List (ClassTypePart TypeSignature) → Prop
  | [] => True
  | ⟨name, arguments⟩ :: rest =>
    Token endsIdentifier name ∧ ArgumentsWellFormed arguments ∧ InnerWellFormed rest

end

variable {t : TypeSignature} {input rest : List Char} {reference : Parser TypeSignature}

theorem argumentsWellFormed_cons (a : TypeArgument TypeSignature)
    (as : List (TypeArgument TypeSignature)) :
    ArgumentsWellFormed (a :: as) ↔ ArgumentsWellFormed [a] ∧ ArgumentsWellFormed as := by
  cases a <;> simp [ArgumentsWellFormed]

theorem argumentChars_cons (a : TypeArgument TypeSignature)
    (as : List (TypeArgument TypeSignature)) :
    argumentChars (a :: as) = argumentChars [a] ++ argumentChars as := by
  cases a <;> simp [argumentChars]

theorem head?_chars_of_isReference (h : t.isReference = true) :
    ∃ c, t.chars.head? = some c ∧ (c = 'L' ∨ c = 'T' ∨ c = '[') := by
  cases t with
  | base p => cases h
  | classType c =>
    obtain ⟨⟨name, arguments⟩, inner⟩ := c
    exact ⟨'L', by simp [chars], Or.inl rfl⟩
  | var name => exact ⟨'T', by simp [chars], Or.inr (Or.inl rfl)⟩
  | array element => exact ⟨'[', by simp [chars], Or.inr (Or.inr rfl)⟩

theorem chars_ne_nil : t.chars ≠ [] := by
  cases t <;> simp [chars]

/-- The parser yields well-formed reference types only, from what they are written as. -/
def Sound (reference : Parser TypeSignature) : Prop :=
  ∀ input t rest, reference input = some (t, rest) →
    (t.isReference = true ∧ t.WellFormed) ∧ input = t.chars ++ rest

theorem parsePrimitive_eq_some {p : Primitive} :
    parsePrimitive input = some (p, rest) ↔ input = p.letter :: rest := by
  cases input with
  | nil => simp [parsePrimitive]
  | cons c input =>
    rw [parsePrimitive]
    simp only [Option.map_eq_some_iff, Primitive.ofLetter?_eq_some_iff, Prod.mk.injEq,
      List.cons.injEq]
    constructor
    · rintro ⟨_, rfl, rfl, rfl⟩
      exact ⟨rfl, rfl⟩
    · rintro ⟨rfl, rfl⟩
      exact ⟨p, rfl, rfl, rfl⟩

theorem parseVar_eq_some : parseVar input = some (t, rest) ↔
    ∃ name, t = var name ∧ Token endsIdentifier name ∧ input = 'T' :: name.toList ++ ';' :: rest := by
  rw [parseVar, bind_eq_some]
  simp only [bind_eq_some, char_eq_some, parseIdentifier, takeTill_eq_some, pure_eq_some]
  constructor
  · rintro ⟨_, _, rfl, name, _, ⟨hName, rfl, -⟩, _, _, rfl, rfl, rfl⟩
    exact ⟨name, rfl, hName, rfl⟩
  · rintro ⟨name, rfl, hName, rfl⟩
    refine ⟨(), _, rfl, name, _, ⟨hName, rfl, fun c hc => ?_⟩, (), rest, rfl, rfl, rfl⟩
    cases hc
    rfl

theorem argument_of_parse (hReference : Sound reference) {a : TypeArgument TypeSignature}
    (h : parseArgument reference input = some (a, rest)) :
    ArgumentsWellFormed [a] ∧ input = argumentChars [a] ++ rest := by
  simp only [parseArgument, orElse_eq_some, char_seqRight_eq_some, pure_eq_some, map_eq_some] at h
  rcases h with ⟨_, rfl, rfl, rfl⟩ | ⟨-, ⟨_, rfl, t, h, rfl⟩ | ⟨-, ⟨_, rfl, t, h, rfl⟩ |
    ⟨-, t, h, rfl⟩⟩⟩
  · simp [ArgumentsWellFormed, argumentChars]
  · obtain ⟨ht, rfl⟩ := hReference _ _ _ h
    simp [ArgumentsWellFormed, argumentChars, ht]
  · obtain ⟨ht, rfl⟩ := hReference _ _ _ h
    simp [ArgumentsWellFormed, argumentChars, ht]
  · obtain ⟨ht, rfl⟩ := hReference _ _ _ h
    simp [ArgumentsWellFormed, argumentChars, ht]

theorem argumentChars_ne_nil (a : TypeArgument TypeSignature) : argumentChars [a] ≠ [] := by
  cases a <;> simp [argumentChars, chars_ne_nil]

theorem shrinks_parseArgument (hReference : Sound reference) :
    Shrinks (parseArgument reference) := by
  intro input a rest h
  obtain ⟨-, rfl⟩ := argument_of_parse hReference h
  have hLength := List.length_pos_iff.mpr (argumentChars_ne_nil a)
  rw [List.length_append]
  omega

theorem arguments_of_repeats (hReference : Sound reference)
    {as : List (TypeArgument TypeSignature)}
    (h : Repeats (parseArgument reference) as input rest) :
    ArgumentsWellFormed as ∧ input = argumentChars as ++ rest := by
  induction h with
  | done _ => exact ⟨trivial, rfl⟩
  | @step a as _ _ _ h _ ih =>
    obtain ⟨hHead, rfl⟩ := argument_of_parse hReference h
    obtain ⟨hTail, rfl⟩ := ih
    refine ⟨(argumentsWellFormed_cons a as).mpr ⟨hHead, hTail⟩, ?_⟩
    rw [argumentChars_cons a as, List.append_assoc]

theorem arguments_of_parse (hReference : Sound reference) {as : List (TypeArgument TypeSignature)}
    (h : parseArguments reference input = some (as, rest)) :
    ArgumentsWellFormed as ∧ input = angled as.isEmpty (argumentChars as) ++ rest := by
  simp only [parseArguments, bind_eq_some, optional_eq_some, between_eq_some, pure_eq_some,
    many1_eq_some (shrinks_parseArgument hReference)] at h
  obtain ⟨_, _, ⟨as', ⟨_, rfl, hSome, h⟩, rfl⟩ | ⟨-, rfl, rfl⟩, rfl, rfl⟩ := h
  · obtain ⟨has, rfl⟩ := arguments_of_repeats hReference h
    refine ⟨has, ?_⟩
    simp [angled, hSome]
  · exact ⟨trivial, rfl⟩

theorem inner_of_parse (hReference : Sound reference) {p : ClassTypePart TypeSignature}
    (h : parseInner reference input = some (p, rest)) :
    InnerWellFormed [p] ∧ input = innerChars [p] ++ rest := by
  simp only [parseInner, bind_eq_some, char_eq_some, parseIdentifier, takeTill_eq_some,
    pure_eq_some] at h
  obtain ⟨_, _, rfl, name, _, ⟨hName, rfl, -⟩, arguments, _, h, rfl, rfl⟩ := h
  obtain ⟨hArguments, rfl⟩ := arguments_of_parse hReference h
  simp [InnerWellFormed, innerChars, hName, hArguments]

theorem shrinks_parseInner (hReference : Sound reference) : Shrinks (parseInner reference) := by
  intro input p rest h
  obtain ⟨-, rfl⟩ := inner_of_parse hReference h
  obtain ⟨name, arguments⟩ := p
  simp only [innerChars, List.cons_append, List.length_cons, List.length_append]
  omega

theorem innerWellFormed_cons (p : ClassTypePart TypeSignature)
    (ps : List (ClassTypePart TypeSignature)) :
    InnerWellFormed (p :: ps) ↔ InnerWellFormed [p] ∧ InnerWellFormed ps := by
  simp [InnerWellFormed, and_assoc]

theorem innerChars_cons (p : ClassTypePart TypeSignature)
    (ps : List (ClassTypePart TypeSignature)) :
    innerChars (p :: ps) = innerChars [p] ++ innerChars ps := by
  simp [innerChars]

theorem inner_of_repeats (hReference : Sound reference) {ps : List (ClassTypePart TypeSignature)}
    (h : Repeats (parseInner reference) ps input rest) :
    InnerWellFormed ps ∧ input = innerChars ps ++ rest := by
  induction h with
  | done _ => exact ⟨trivial, rfl⟩
  | @step p ps _ _ _ h _ ih =>
    obtain ⟨hHead, rfl⟩ := inner_of_parse hReference h
    obtain ⟨hTail, rfl⟩ := ih
    refine ⟨(innerWellFormed_cons p ps).mpr ⟨hHead, hTail⟩, ?_⟩
    rw [innerChars_cons p ps, List.append_assoc]

theorem classType_of_parse (hReference : Sound reference) {c : ClassType}
    (h : parseClassType reference input = some (c, rest)) :
    (classType c).WellFormed ∧ input = (classType c).chars ++ rest := by
  simp only [parseClassType, bind_eq_some, char_eq_some, takeTill_eq_some, pure_eq_some,
    many_eq_some (shrinks_parseInner hReference)] at h
  obtain ⟨_, _, rfl, name, _, ⟨hName, rfl, -⟩, arguments, _, h, inner, _, hInner, _, _, rfl, rfl,
    rfl⟩ := h
  obtain ⟨hArguments, rfl⟩ := arguments_of_parse hReference h
  obtain ⟨hInnerParts, rfl⟩ := inner_of_repeats hReference hInner
  simp [WellFormed, chars, hName, hArguments, hInnerParts]

theorem any_of_parse (hReference : Sound reference)
    (h : parseAny reference input = some (t, rest)) : t.WellFormed ∧ input = t.chars ++ rest := by
  simp only [parseAny, orElse_eq_some, map_eq_some, parsePrimitive_eq_some] at h
  rcases h with ⟨p, rfl, rfl⟩ | ⟨-, h⟩
  · simp [WellFormed, chars]
  · obtain ⟨⟨-, ht⟩, rfl⟩ := hReference _ _ _ h
    exact ⟨ht, rfl⟩

/-- By induction on the depth, each level being sound if the one below it is. -/
theorem sound_parseReference (depth : Nat) : Sound (parseReference depth) := by
  induction depth with
  | zero =>
    intro input t rest h
    cases h
  | succ depth ih =>
    intro input t rest h
    simp only [parseReference, orElse_eq_some, map_eq_some, char_seqRight_eq_some] at h
    rcases h with ⟨c, h, rfl⟩ | ⟨-, h | ⟨-, _, rfl, e, h, rfl⟩⟩
    · obtain ⟨hc, rfl⟩ := classType_of_parse ih h
      exact ⟨⟨rfl, hc⟩, rfl⟩
    · obtain ⟨name, rfl, hName, rfl⟩ := parseVar_eq_some.mp h
      simp [isReference, WellFormed, chars, hName]
    · obtain ⟨he, rfl⟩ := any_of_parse ih h
      simp [isReference, WellFormed, chars, he]

/-- The parser reads back all well-formed reference types up to a length. -/
def Complete (reference : Parser TypeSignature) (length : Nat) : Prop :=
  ∀ t : TypeSignature, t.isReference = true → t.WellFormed → t.chars.length ≤ length →
    ∀ rest, reference (t.chars ++ rest) = some (t, rest)

theorem Sound.eq_none (hReference : Sound reference) {c : Char}
    (h : c ≠ 'L' ∧ c ≠ 'T' ∧ c ≠ '[') : reference (c :: rest) = none := by
  cases hParse : reference (c :: rest) with
  | none => rfl
  | some r =>
    obtain ⟨⟨hKind, -⟩, hChars⟩ := hReference _ r.1 r.2 hParse
    obtain ⟨d, hHead, hd⟩ := head?_chars_of_isReference hKind
    have hEq := congrArg List.head? hChars
    rw [List.head?_append, hHead, Option.some_or, List.head?_cons, Option.some.injEq] at hEq
    obtain ⟨hL, hT, hArray⟩ := h
    rcases hd with rfl | rfl | rfl
    · exact absurd hEq hL
    · exact absurd hEq hT
    · exact absurd hEq hArray

theorem parseArgument_eq_none (hReference : Sound reference) :
    parseArgument reference ('>' :: rest) = none := by
  simp only [parseArgument, orElse_eq_none, map_eq_none]
  exact ⟨char_seqRight_eq_none (by simp), char_seqRight_eq_none (by simp),
    char_seqRight_eq_none (by simp), hReference.eq_none (by decide)⟩

theorem parsePrimitive_eq_none (h : t.isReference = true) :
    parsePrimitive (t.chars ++ rest) = none := by
  obtain ⟨c, hHead, hc⟩ := head?_chars_of_isReference h
  obtain ⟨cs, hChars⟩ := List.head?_eq_some_iff.mp hHead
  rw [hChars, List.cons_append, parsePrimitive]
  rcases hc with rfl | rfl | rfl <;> rfl

/-- A parser of reference types does for any type, as no primitive starts like a reference. -/
theorem parseAny_chars (ht : t.WellFormed) (hReference : t.isReference = true →
    reference (t.chars ++ rest) = some (t, rest)) :
    parseAny reference (t.chars ++ rest) = some (t, rest) := by
  rw [parseAny, orElse_eq_some, map_eq_some, map_eq_none]
  cases hKind : t.isReference with
  | true => exact Or.inr ⟨parsePrimitive_eq_none hKind, hReference hKind⟩
  | false =>
    cases t with
    | base p => exact Or.inl ⟨p, by simp [parsePrimitive_eq_some, chars], rfl⟩
    | _ => cases hKind

theorem parseArgument_upper (h : reference input = some (t, rest)) :
    parseArgument reference ('+' :: input) = some (.upper t, rest) := by
  simp only [parseArgument, orElse_eq_some, map_eq_some, char_seqRight_eq_some]
  exact Or.inr ⟨char_seqRight_eq_none (by simp), Or.inl ⟨input, rfl, t, h, rfl⟩⟩

theorem parseArgument_lower (h : reference input = some (t, rest)) :
    parseArgument reference ('-' :: input) = some (.lower t, rest) := by
  simp only [parseArgument, orElse_eq_some, map_eq_some, char_seqRight_eq_some]
  exact Or.inr ⟨char_seqRight_eq_none (by simp), Or.inr ⟨char_seqRight_eq_none (by simp),
    Or.inl ⟨input, rfl, t, h, rfl⟩⟩⟩

theorem parseArgument_invariant (hKind : t.isReference = true)
    (h : reference (t.chars ++ rest) = some (t, rest)) :
    parseArgument reference (t.chars ++ rest) = some (.invariant t, rest) := by
  have hOther : ∀ c, c ≠ 'L' ∧ c ≠ 'T' ∧ c ≠ '[' → (t.chars ++ rest).head? ≠ some c := by
    rintro c ⟨hL, hT, hArray⟩ hEq
    obtain ⟨d, hHead, hd⟩ := head?_chars_of_isReference hKind
    rw [List.head?_append, hHead, Option.some_or, Option.some.injEq] at hEq
    rcases hd with rfl | rfl | rfl
    · exact hL hEq.symm
    · exact hT hEq.symm
    · exact hArray hEq.symm
  simp only [parseArgument, orElse_eq_some, map_eq_some, char_seqRight_eq_some]
  exact Or.inr ⟨char_seqRight_eq_none (hOther '*' (by decide)),
    Or.inr ⟨char_seqRight_eq_none (hOther '+' (by decide)),
      Or.inr ⟨char_seqRight_eq_none (hOther '-' (by decide)), t, h, rfl⟩⟩⟩

section Complete

variable {length : Nat} (hReference : Sound reference) (hComplete : Complete reference length)

include hReference hComplete

theorem repeats_arguments (as : List (TypeArgument TypeSignature)) (has : ArgumentsWellFormed as)
    (hLength : (argumentChars as).length ≤ length) : Repeats (parseArgument reference) as
      (argumentChars as ++ '>' :: rest) ('>' :: rest) := by
  induction as with
  | nil => exact .done (parseArgument_eq_none hReference)
  | cons a as ih =>
    rw [argumentChars_cons, List.length_append] at hLength
    obtain ⟨ha, has⟩ := (argumentsWellFormed_cons a as).mp has
    have hTail := ih has (by omega)
    rw [argumentChars_cons, List.append_assoc]
    refine .step ?_ hTail
    cases a with
    | any =>
      simp [parseArgument, orElse_eq_some, char_seqRight_eq_some, pure_eq_some, argumentChars]
    | invariant type =>
      obtain ⟨⟨hKind, hType⟩, -⟩ := ha
      simp only [argumentChars, List.append_nil] at hLength ⊢
      exact parseArgument_invariant hKind (hComplete type hKind hType (by omega) _)
    | upper bound =>
      obtain ⟨⟨hKind, hBound⟩, -⟩ := ha
      simp only [argumentChars, List.append_nil, List.length_cons] at hLength ⊢
      exact parseArgument_upper (hComplete bound hKind hBound (by omega) _)
    | lower bound =>
      obtain ⟨⟨hKind, hBound⟩, -⟩ := ha
      simp only [argumentChars, List.append_nil, List.length_cons] at hLength ⊢
      exact parseArgument_lower (hComplete bound hKind hBound (by omega) _)

theorem parseArguments_chars (as : List (TypeArgument TypeSignature))
    (has : ArgumentsWellFormed as)
    (hLength : (angled as.isEmpty (argumentChars as)).length ≤ length)
    (hRest : rest.head? ≠ some '<') :
    parseArguments reference (angled as.isEmpty (argumentChars as) ++ rest) = some (as, rest) := by
  simp only [parseArguments, bind_eq_some, optional_eq_some, between_eq_some, pure_eq_some,
    many1_eq_some (shrinks_parseArgument hReference)]
  cases as with
  | nil => exact ⟨none, rest, Or.inr ⟨between_eq_none hRest, rfl, rfl⟩, rfl, rfl⟩
  | cons a as =>
    rw [List.isEmpty_cons, angled, if_neg Bool.false_ne_true, List.length_append,
      List.length_cons] at hLength
    have hItems : Repeats (parseArgument reference) (a :: as)
        (argumentChars (a :: as) ++ '>' :: rest) ('>' :: rest) :=
      repeats_arguments hReference hComplete (a :: as) has (by omega)
    refine ⟨some (a :: as), rest, Or.inl ⟨a :: as, ⟨_, ?_, List.cons_ne_nil a as, hItems⟩, rfl⟩,
      rfl, rfl⟩
    simp [angled]

end Complete

/-- What comes after a class name and its arguments: a nested class or the end. -/
def AfterPart (rest : List Char) : Prop := ∃ cs, rest = '.' :: cs ∨ rest = ';' :: cs

theorem afterPart_innerChars (ps : List (ClassTypePart TypeSignature)) (rest : List Char) :
    AfterPart (innerChars ps ++ ';' :: rest) := by
  cases ps with
  | nil => exact ⟨rest, Or.inr rfl⟩
  | cons p ps =>
    obtain ⟨name, arguments⟩ := p
    exact ⟨_, Or.inl (by rw [innerChars, List.cons_append, List.cons_append, List.cons_append])⟩

theorem AfterPart.head?_ne (h : AfterPart rest) : rest.head? ≠ some '<' := by
  obtain ⟨cs, rfl | rfl⟩ := h <;> simp

/-- A name ends where its arguments or what comes after them start. -/
theorem AfterPart.stops {stop : Char → Bool} (h : AfterPart rest)
    (hStop : stop '.' = true ∧ stop ';' = true ∧ stop '<' = true) {isEmpty : Bool}
    {items : List Char} : ∀ c ∈ (angled isEmpty items ++ rest).head?, stop c = true := by
  obtain ⟨hDot, hEnd, hLess⟩ := hStop
  intro c hc
  cases isEmpty with
  | false =>
    cases hc
    exact hLess
  | true =>
    obtain ⟨cs, rfl | rfl⟩ := h
    · cases hc
      exact hDot
    · cases hc
      exact hEnd

section Complete

variable {length : Nat} (hReference : Sound reference) (hComplete : Complete reference length)

include hReference hComplete

theorem repeats_inner (ps : List (ClassTypePart TypeSignature)) (hps : InnerWellFormed ps)
    (hLength : (innerChars ps).length ≤ length) :
    Repeats (parseInner reference) ps (innerChars ps ++ ';' :: rest) (';' :: rest) := by
  induction ps with
  | nil => exact .done (char_bind_eq_none (by simp [innerChars]))
  | cons p ps ih =>
    obtain ⟨name, arguments⟩ := p
    obtain ⟨hName, hArguments, hps⟩ := hps
    simp only [innerChars, List.length_cons, List.length_append] at hLength
    have hTail := ih hps (by omega)
    have hAfter := afterPart_innerChars ps rest
    refine .step ?_ hTail
    simp only [parseInner, bind_eq_some, char_eq_some, parseIdentifier, takeTill_eq_some,
      pure_eq_some]
    refine ⟨(), _, ?_, name, _, ⟨hName, rfl, hAfter.stops (by decide)⟩, arguments, _,
      parseArguments_chars hReference hComplete arguments hArguments (by omega) hAfter.head?_ne, rfl,
      rfl⟩
    simp [innerChars]

theorem parseClassType_chars {c : ClassType} (hc : (classType c).WellFormed)
    (hLength : (classType c).chars.length ≤ length + 1) :
    parseClassType reference ((classType c).chars ++ rest) = some (c, rest) := by
  obtain ⟨⟨name, arguments⟩, inner⟩ := c
  obtain ⟨hName, hArguments, hInner⟩ := hc
  simp only [chars, List.length_cons, List.length_append] at hLength
  have hAfter := afterPart_innerChars inner rest
  simp only [parseClassType, bind_eq_some, char_eq_some, takeTill_eq_some, pure_eq_some,
    many_eq_some (shrinks_parseInner hReference)]
  refine ⟨(), _, ?_, name, _, ⟨hName, rfl, hAfter.stops (by decide)⟩, arguments, _,
    parseArguments_chars hReference hComplete arguments hArguments (by omega) hAfter.head?_ne, inner,
    _, repeats_inner hReference hComplete inner hInner (by omega), (), rest, rfl, rfl, rfl⟩
  simp [chars]

end Complete

/-- By induction on the depth: what stands inside a type is shorter than the type. -/
theorem complete_parseReference (depth : Nat) : Complete (parseReference depth) depth := by
  induction depth with
  | zero =>
    intro t _ _ hLength
    exact absurd (List.eq_nil_of_length_eq_zero (Nat.le_zero.mp hLength)) chars_ne_nil
  | succ depth ih =>
    intro t hKind ht hLength rest
    simp only [parseReference, orElse_eq_some, map_eq_some, map_eq_none]
    cases t with
    | base p => cases hKind
    | classType c =>
      exact Or.inl ⟨c, parseClassType_chars (sound_parseReference depth) ih ht hLength, rfl⟩
    | var name =>
      have hVar : parseVar ((var name).chars ++ rest) = some (var name, rest) :=
        parseVar_eq_some.mpr ⟨name, rfl, ht, by simp [chars]⟩
      exact Or.inr ⟨char_bind_eq_none (by simp [chars]), Or.inl hVar⟩
    | array element =>
      simp only [chars, List.length_cons] at hLength
      have hElement := parseAny_chars (t := element) ht fun hElementKind =>
        ih element hElementKind ht (by omega) rest
      refine Or.inr ⟨char_bind_eq_none (by simp [chars]),
        Or.inr ⟨char_bind_eq_none (by simp [chars]), ?_⟩⟩
      rw [char_seqRight_eq_some]
      exact ⟨element.chars ++ rest, by simp [chars], map_eq_some.mpr ⟨element, hElement, rfl⟩⟩

theorem sound_reference : Sound TypeSignature.reference :=
  fun input => sound_parseReference input.length input

theorem complete_reference (length : Nat) : Complete TypeSignature.reference length :=
  fun t hKind ht _ rest => complete_parseReference _ t hKind ht (by simp) rest

/-- A reference type is parsed exactly from what a well-formed one is written as. -/
theorem exact_reference : Exact TypeSignature.reference
    (fun t => t.isReference = true ∧ t.WellFormed) chars where
  eq_some := by
    intro input t rest
    constructor
    · exact sound_reference input t rest
    · rintro ⟨⟨hKind, ht⟩, rfl⟩
      exact complete_reference _ t hKind ht (Nat.le_refl _) rest
  ne_nil := fun _ => chars_ne_nil

theorem reference_eq_none_of_var (h : parseVar ('T' :: rest) = none) :
    TypeSignature.reference ('T' :: rest) = none := by
  cases hParse : TypeSignature.reference ('T' :: rest) with
  | none => rfl
  | some r =>
    obtain ⟨t, rest'⟩ := r
    obtain ⟨⟨hKind, ht⟩, hChars⟩ := exact_reference.eq_some.mp hParse
    cases t with
    | base p => cases hKind
    | classType c =>
      obtain ⟨⟨name, arguments⟩, inner⟩ := c
      simp [chars] at hChars
    | var name =>
      have hVar : parseVar ('T' :: rest) = some (var name, rest') :=
        parseVar_eq_some.mpr ⟨name, rfl, ht, by simpa [chars] using hChars⟩
      rw [h] at hVar
      cases hVar
    | array element => simp [chars] at hChars

theorem exact_any : Exact (parseAny TypeSignature.reference) WellFormed chars where
  eq_some := by
    intro input t rest
    constructor
    · exact any_of_parse sound_reference
    · rintro ⟨ht, rfl⟩
      exact parseAny_chars ht fun hKind => exact_reference.eq_some.mpr ⟨⟨hKind, ht⟩, rfl⟩
  ne_nil := fun _ => chars_ne_nil

theorem parseAny_eq_none {c : Char} (hc : Primitive.ofLetter? c = none)
    (h : c ≠ 'L' ∧ c ≠ 'T' ∧ c ≠ '[') : parseAny TypeSignature.reference (c :: rest) = none := by
  have hPrimitive : parsePrimitive (c :: rest) = none := by rw [parsePrimitive, hc]; rfl
  rw [parseAny, orElse_eq_none, map_eq_none]
  exact ⟨hPrimitive, sound_reference.eq_none h⟩

theorem exact_classType : Exact ClassTypeOf.parseNext (fun c => (classType c).WellFormed)
    ClassTypeOf.chars where
  eq_some := by
    intro input c rest
    constructor
    · exact classType_of_parse sound_reference
    · rintro ⟨hc, rfl⟩
      exact parseClassType_chars sound_reference (complete_reference _) hc (Nat.le_succ _)
  ne_nil := fun _ => chars_ne_nil

/-- A text is a type exactly if it is how a well-formed one is written. -/
theorem parse_eq_ok {s : String} : parse s = .ok t ↔ t.WellFormed ∧ s = t.text := by
  have hText : s = t.text ↔ s.toList = t.chars ++ [] := by
    rw [text, ← String.toList_inj, String.toList_ofList, List.append_nil]
  rw [hText, ← exact_any.eq_some, ← whole?_eq_some, parse]
  cases whole? (parseAny TypeSignature.reference) s <;> simp

end Renaming.TypeSignature
