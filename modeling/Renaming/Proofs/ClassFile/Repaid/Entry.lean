import Renaming.Proofs.ClassFile.Supply

/-!
# Table entries are repaid

The entries of the tables inside attributes are written in as many bytes as they were read from.
-/

namespace Renaming

open Decoder (Takes fixed_u1 fixed_u2)
open Encoder (Runs Repays Supplies repays_list repays_index)

variable {P : Pool} {L : Constant → Prop} {I : PoolBuilder → Prop} (hI : Supplies P L I)

include hI

theorem ExceptionHandler.repays : Repays I (decode P) encode := by
  refine fixed_u2.bind fun start => fixed_u2.bind fun stop => fixed_u2.bind fun handler =>
    fixed_u2.bind fun i => .lookup fun caught hCaught => .pure ?_
  exact (hI.optionalClass hCaught).bind fun i _ => .pure (by simp)

theorem VerificationType.repays : Repays I (decode P) encode := by
  apply fixed_u1.bind
  intro tag
  split
  case h_8 =>
    refine fixed_u2.bind fun i => .lookup fun name hName => .pure ?_
    exact (hI.className hName).bind fun i _ => .pure (by simp)
  case h_9 => exact fixed_u2.bind fun offset => .pure (.pure (by simp))
  case h_10 => exact .throw
  all_goals exact .pure (.pure rfl)

theorem StackMapFrame.repays : Repays I (decode P) encode := by
  have hType := VerificationType.repays hI
  apply fixed_u1.bind
  intro tag
  split
  · exact .pure (.pure rfl)
  split
  · refine hType.bind fun n stack hStack => .pure ?_
    exact hStack.bind fun bs hBs => .pure (by simp [hBs, Nat.add_comm])
  apply Takes.guarded
  intro _
  apply fixed_u2.bind
  intro delta
  split
  · refine hType.bind fun n stack hStack => .pure ?_
    refine hStack.bind fun bs hBs => .pure ?_
    simp [hBs]
    omega
  split
  · exact .pure (.pure (by simp))
  split
  · exact .pure (.pure (by simp))
  split
  · apply (Decoder.takes_count hType _).bind
    rintro n locals ⟨-, ns, hLocals, rfl⟩
    apply Takes.pure
    refine (Encoder.runs_each hLocals).bind fun bs hBs => .pure ?_
    simp [hBs]
    omega
  · have hTypes (table : String) := repays_list table hType
    refine (hTypes "frame locals").bind fun n locals hLocals => (hTypes "frame stack").bind
      fun m stack hStack => .pure ?_
    refine hLocals.bind fun bs hBs => hStack.bind fun cs hCs => .pure ?_
    simp [hBs, hCs]
    omega

theorem InnerClass.repays : Repays I (decode P) encode := by
  refine fixed_u2.bind fun _ => fixed_u2.bind fun _ => fixed_u2.bind fun _ => fixed_u2.bind
    fun access => .lookup fun inner hInner => .lookup fun outer hOuter => .lookup
    fun name hName => .pure ?_
  exact (hI.className hInner).bind fun i _ => (hI.optionalClass hOuter).bind fun j _ =>
    (hI.optionalUtf8 hName).bind fun k _ => .pure (by simp)

omit hI in
theorem LineNumber.repays : Repays I decode fun l => return l.encode := by
  refine fixed_u2.bind fun start => fixed_u2.bind fun line => .pure (.pure ?_)
  simp [encode]

theorem LocalVariable.repays : Repays I (decode P) encode := by
  refine fixed_u2.bind fun start => fixed_u2.bind fun length => fixed_u2.bind fun _ =>
    fixed_u2.bind fun _ => fixed_u2.bind fun index => .lookup fun name hName => .lookup
    fun descriptor hDescriptor => .pure ?_
  exact (hI.utf8 hName).bind fun i _ => (hI.utf8 hDescriptor).bind fun j _ => .pure (by simp)

theorem BootstrapMethod.repays : Repays I (decode P) encode := by
  have hArguments : Repays I (Decoder.list do P.loadable (← Decoder.u2))
      (Encoder.list "bootstrap arguments" (Encoder.index ∘ PoolBuilder.constant)) :=
    repays_list _ (repays_index fun _ _ h => hI.names (Pool.loadable_eq_ok.mp h).1)
  refine fixed_u2.bind fun i => hArguments.bind fun n arguments hRest => .lookup fun c hc => ?_
  split
  · refine .pure ((hI.names (Pool.constant_eq_ok.mp hc)).bind fun j _ => hRest.bind
      fun bs hBs => .pure ?_)
    simp [hBs]
  · exact .throw

theorem MethodParameter.repays : Repays I (decode P) encode := by
  refine fixed_u2.bind fun _ => fixed_u2.bind fun access => .lookup fun name hName => .pure ?_
  exact (hI.optionalUtf8 hName).bind fun i _ => .pure (by simp)

theorem ModuleRequire.repays : Repays I (decode P) encode := by
  refine fixed_u2.bind fun _ => fixed_u2.bind fun flags => fixed_u2.bind fun _ => .lookup
    fun module hModule => .lookup fun version hVersion => .pure ?_
  exact (hI.moduleName hModule).bind fun i _ => (hI.optionalUtf8 hVersion).bind fun j _ =>
    .pure (by simp)

theorem ModuleExport.repays (table : String) : Repays I (decode P) (encode table) := by
  have hTargets : Repays I (Decoder.list do P.moduleName (← Decoder.u2))
      (Encoder.list table (Encoder.index ∘ PoolBuilder.moduleName)) :=
    repays_list _ (repays_index fun _ _ => hI.moduleName)
  refine fixed_u2.bind fun _ => fixed_u2.bind fun flags => hTargets.bind
    fun n targets hRest => .lookup fun package hPackage => .pure ?_
  exact (hI.packageName hPackage).bind fun i _ => hRest.bind fun bs hBs => .pure (by simp [hBs])

theorem ModuleProvide.repays : Repays I (decode P) encode := by
  have hClasses := hI.repays_classes "module provides"
  refine fixed_u2.bind fun _ => hClasses.bind fun n implementations hRest => .lookup
    fun service hService => .pure ?_
  exact (hI.className hService).bind fun i _ => hRest.bind fun bs hBs => .pure (by simp [hBs])

theorem ModuleInfo.repays : Repays I (decode P) encode := by
  have hRequire := repays_list "module requires" (ModuleRequire.repays hI)
  have hExport (table : String) := repays_list table (ModuleExport.repays hI table)
  have hUse := hI.repays_classes "module uses"
  have hProvide := repays_list "module provides" (ModuleProvide.repays hI)
  refine fixed_u2.bind fun _ => fixed_u2.bind fun flags => fixed_u2.bind fun _ =>
    hRequire.bind fun n₁ requires hRequires => (hExport "module exports").bind
    fun n₂ exports hExports => (hExport "module opens").bind fun n₃ opens hOpens =>
    hUse.bind fun n₄ uses hUses => hProvide.bind fun n₅ provides hProvides =>
    .lookup fun name hName => .lookup fun version hVersion => .pure ?_
  refine (hI.moduleName hName).bind fun i _ => (hI.optionalUtf8 hVersion).bind fun j _ =>
    hRequires.bind fun bs₁ h₁ => hExports.bind fun bs₂ h₂ => hOpens.bind fun bs₃ h₃ =>
    hUses.bind fun bs₄ h₄ => hProvides.bind fun bs₅ h₅ => .pure ?_
  simp [h₁, h₂, h₃, h₄, h₅]

end Renaming
