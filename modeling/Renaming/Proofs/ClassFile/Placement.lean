import Renaming.Proofs.ClassFile.Built
import Renaming.Proofs.ClassFile.RoundTrip

/-!
# Where instructions lie

The writer fails if an instruction does not come to lie where it was read, or if an operand has outgrown
its byte. Neither happens as long as the instructions of every method body lie one behind the other, and
this they do in every class that was read.
-/

namespace Renaming

/-- If the step of the writer fails, then not for a misfit. -/
def Encoder.Fitting {α : Type} (x : Encoder α) : Prop := ∀ b e, x b = .error e → ¬ e.IsMisfit

theorem Encoder.Built.fitting {α : Type} {x : Encoder α} {L : Constant → Prop}
    (h : Built (fun _ => False) L x) : Fitting x := by
  intro b e hFails hMisfit
  rcases h.raises b e hFails with hNone | hOverflow | ⟨i, rfl⟩
  · exact hNone
  · cases e <;> first | exact hMisfit | exact hOverflow
  · exact hMisfit

namespace ClassModel

variable {c : ClassModel}

theorem fitting_encodeBody (h : ∀ body ∈ c.bodies, body.InPlace) :
    Encoder.Fitting c.encodeBody :=
  (built_encodeBody (L := fun _ => True) fun body hBody =>
    ⟨Or.inr (h body hBody), fun _ _ _ _ => trivial⟩).fitting

theorem not_isMisfit_of_serialize (h : ∀ body ∈ c.bodies, body.InPlace) {e : WriteError}
    (hFails : c.serialize = .error e) : ¬ e.IsMisfit := by
  rcases serialize_eq_error hFails with hPool | rfl | ⟨pool, -, hBody⟩
  · obtain ⟨name, rfl⟩ := exists_mixedPools_of_verbatimPool hPool
    exact id
  · exact id
  · exact fitting_encodeBody h _ e hBody

end ClassModel

namespace Attribute

variable {P : Pool}

/-- A method body that was read is in place, at any depth. -/
theorem inPlace_of_decodeTo {depth : Nat} {raw : RawAttribute} {a : Attribute}
    (h : decodeTo P depth raw = .ok a) : ∀ body ∈ a.bodies, body.InPlace := by
  induction depth generalizing raw a with
  | zero => cases h
  | succ depth ih =>
    cases readFrom_of_decodeTo h with
    | @code body _ hRead =>
      have hBody := Code.readWith_of_decodeWith hRead
      obtain ⟨bytecode, hLength, hInstructions⟩ := hBody.instructions
      rw [bodies, List.forall_mem_cons]
      refine ⟨(Instruction.laid_of_decodeAll hInstructions hLength).1, fun inner hInner => ?_⟩
      obtain ⟨a, ha, hInner⟩ := mem_bodiesOfEach.mp hInner
      obtain ⟨raw, hRaw⟩ := hBody.attributes a ha
      exact ih hRaw inner hInner
    | record _ hRead =>
      intro body hBody
      obtain ⟨c, hc, a, ha, hBody⟩ := mem_bodiesOfComponents.mp hBody
      obtain ⟨s, t, hItem⟩ := Decoder.list_eq_ok hRead c hc
      obtain ⟨raw, hRaw⟩ := (RecordComponent.readWith_of_decodeWith hItem).attributes a ha
      exact ih hRaw body hBody
    | plain => exact fun _ hBody => absurd hBody List.not_mem_nil
    | unknown => exact fun _ hBody => absurd hBody List.not_mem_nil

theorem inPlace_of_mapM {raws : List RawAttribute} {as : List Attribute}
    (h : raws.mapM (decode P) = .ok as) : ∀ body ∈ bodiesOfEach as, body.InPlace := by
  intro body hBody
  obtain ⟨a, ha, hBody⟩ := mem_bodiesOfEach.mp hBody
  obtain ⟨raw, -, hRaw⟩ := Outcome.exists_of_mem (Outcome.mapM_eq_ok.mp h) a ha
  exact inPlace_of_decodeTo hRaw body hBody

end Attribute

theorem ClassModel.inPlace_of_parse {bytes : Bytes} {c : ClassModel} (h : parse bytes = .ok c) :
    ∀ body ∈ c.bodies, body.InPlace := by
  obtain ⟨raw, -, hResolve⟩ := parse_eq_ok h
  have hStands := RawClass.resolve_eq_ok hResolve
  have hMembers : ∀ (raws : List RawMember) (ms : List Member),
      raws.mapM (RawMember.resolve raw.pool) = .ok ms → ∀ m ∈ ms,
        ∀ body ∈ Attribute.bodiesOfEach m.attributes, body.InPlace := by
    intro raws ms hAll m hm
    obtain ⟨r, -, hr⟩ := Outcome.exists_of_mem (Outcome.mapM_eq_ok.mp hAll) m hm
    exact Attribute.inPlace_of_mapM (RawMember.resolve_eq_ok hr).attributes
  intro body hBody
  rw [bodies, List.mem_append, List.mem_flatMap] at hBody
  rcases hBody with ⟨m, hm, hBody⟩ | hBody
  · rcases List.mem_append.mp hm with hm | hm
    · exact hMembers _ _ hStands.fields m hm body hBody
    · exact hMembers _ _ hStands.methods m hm body hBody
  · exact Attribute.inPlace_of_mapM hStands.attributes body hBody

end Renaming
