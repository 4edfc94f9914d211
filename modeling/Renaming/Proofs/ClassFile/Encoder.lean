import Renaming.Proofs.ClassFile.PoolBuilder

/-!
# What the steps of the writer promise

`Emits K x R` says of a step `x` of the writer that it keeps the pool builder sound, never moves or
changes what is there, touches no constant outside `K`, adds nothing if all of `K` is there already,
and yields a result in the relation `R` to every pool that the builder can still become. So what is
written for one part of a class is known to be readable in the final pool, whatever is added to the
pool after it.
-/

namespace Renaming

def Encoder.Emits {α : Type} (K : Constant → Prop) (x : Encoder α) (R : Pool → α → Prop) : Prop :=
  ∀ b : PoolBuilder, b.Sound → ∀ a b', x b = .ok (a, b') →
    b'.Sound ∧ PoolBuilder.Grows K b b' ∧ ∀ P, b'.FitsIn P → R P a

namespace Encoder

variable {α β : Type} {K K' : Constant → Prop} {x : Encoder α} {R R' : Pool → α → Prop}
  {S : Pool → β → Prop}

namespace Emits

theorem pure {a : α} (h : ∀ P, R P a) : Emits K (Pure.pure a) R := by
  intro b hb a' b' hRun
  obtain ⟨rfl, rfl⟩ := Stateful.pure_eq_ok.mp hRun
  exact ⟨hb, .refl _, fun P _ => h P⟩

theorem bind {f : α → Encoder β} (hx : Emits K x R)
    (hf : ∀ a, Emits K (f a) fun P c => R P a → S P c) : Emits K (x >>= f) S := by
  intro b hb c b'' hRun
  obtain ⟨a, b', hx', hf'⟩ := Stateful.bind_eq_ok.mp hRun
  obtain ⟨hSound, hGrows, hR⟩ := hx b hb a b' hx'
  obtain ⟨hSound', hGrows', hS⟩ := hf a b' hSound c b'' hf'
  exact ⟨hSound', hGrows.trans hGrows', fun P hP => hS P hP (hR P (hGrows'.fitsIn hP))⟩

theorem imp (h : Emits K x R) (hR : ∀ P a, R P a → R' P a) : Emits K x R' := by
  intro b hb a b' hRun
  obtain ⟨hSound, hGrows, hP⟩ := h b hb a b' hRun
  exact ⟨hSound, hGrows, fun P hFits => hR P a (hP P hFits)⟩

theorem mono (hK : ∀ c, K c → K' c) (h : Emits K x R) : Emits K' x R := by
  intro b hb a b' hRun
  obtain ⟨hSound, hGrows, hP⟩ := h b hb a b' hRun
  exact ⟨hSound, hGrows.mono hK, hP⟩

theorem throw {e : WriteError} : Emits K (MonadExcept.throw e : Encoder α) R := by
  intro b _ a b' hRun
  exact absurd hRun Stateful.throw_ne_ok

theorem guarded {p : Prop} [Decidable p] {e : WriteError} (h : ¬ p → Emits K x R) :
    Emits K (if p then MonadExcept.throw e else x) R := by
  split
  · exact throw
  · rename_i hp
    exact h hp

end Emits

open PoolBuilder in
theorem emits_filledWith {c : Constant} {b : PoolBuilder} {i : UInt16} {e : PoolEntry}
    (hb : b.Sound) (hi : b.index[c]? = some i) (hUnfilled : b.isFilled i = false)
    (he : ∀ P, b.FitsIn P → e.StandsFor P c) :
    (b.filledWith i e).Sound ∧ Grows (· = c) b (b.filledWith i e) ∧
      ∀ P, (b.filledWith i e).FitsIn P → P.Names i c := by
  have hGrows := grows_filledWith (e := e) hb hi hUnfilled
  have hSound := sound_filledWith hb hi hUnfilled fun P hP => he P (hGrows.fitsIn hP)
  exact ⟨hSound, hGrows, fun P hP => names_of_filledWith hb hi hSound hP⟩

open PoolBuilder in
theorem emits_intern {c : Constant} {build : Encoder PoolEntry}
    (h : Emits (· ∈ c.parts) build fun P e => e.StandsFor P c) :
    Emits c.Within (intern c build) fun P i => P.Names i c := by
  intro b hb i b' hRun
  have hSelf : ∀ d, d = c → c.Within d := fun d hd => Or.inl hd
  have hParts : ∀ d, d ∈ c.parts → c.Within d := fun d hd => Or.inr hd
  cases intern_eq_ok.mp hRun with
  | filled hKnown hFilled => exact ⟨hb, .refl _, hb.named c i hKnown hFilled⟩
  | @reserved e b₁ hKnown hUnfilled hBuild =>
    obtain ⟨hSound₁, hGrows₁, hStands⟩ := h b hb e b₁ hBuild
    obtain ⟨hSound₂, hGrows₂, hNames⟩ := emits_filledWith hSound₁ (hGrows₁.index c i hKnown)
      (hGrows₁.unfilled c.not_mem_parts hKnown hUnfilled) hStands
    exact ⟨hSound₂, (hGrows₁.mono hParts).trans (hGrows₂.mono hSelf), hNames⟩
  | @new e b₁ b₂ hKnown hBuild hClaim =>
    obtain ⟨hSound₁, hGrows₁, hStands⟩ := h b hb e b₁ hBuild
    have hNew : b₁.index[c]? = none := (hGrows₁.other_index c c.not_mem_parts).trans hKnown
    have hSound₂ := sound_claim hSound₁ hNew hClaim
    have hGrows₂ := grows_claim hSound₁ hNew hClaim
    obtain ⟨hSound₃, hGrows₃, hNames⟩ := emits_filledWith hSound₂
      ((claim_index hClaim).mpr (Or.inl ⟨rfl, rfl⟩)) (claim_unfilled hClaim)
      (fun P hP => hStands P (hGrows₂.fitsIn hP))
    exact ⟨hSound₃, (hGrows₁.mono hParts).trans ((hGrows₂.mono hSelf).trans (hGrows₃.mono hSelf)),
      hNames⟩

open PoolBuilder in
theorem emits_reserve {c : Constant} : Emits (· = c) (reserve c) fun _ _ => True := by
  intro b hb i b' hRun
  cases hKnown : b.index[c]? with
  | some j =>
    rw [reserve_known hKnown] at hRun
    cases hRun
    exact ⟨hb, .refl _, fun _ _ => trivial⟩
  | none =>
    rw [reserve_new hKnown] at hRun
    exact ⟨sound_claim hb hKnown hRun, grows_claim hb hKnown hRun, fun _ _ => trivial⟩

open PoolBuilder in
theorem emits_reserveAll {cs : List Constant} (h : ∀ c ∈ cs, K c) :
    Emits K (reserveAll cs) fun _ _ => True := by
  induction cs with
  | nil => exact .pure fun _ => trivial
  | cons c cs ih =>
    obtain ⟨hHead, hTail⟩ := List.forall_mem_cons.mp h
    have hReserve : Emits K (reserve c) fun _ _ => True :=
      emits_reserve.mono fun d (hd : d = c) => hd ▸ hHead
    rw [reserveAll, List.forIn_cons]
    refine (hReserve.bind (S := fun _ r => r = ForInStep.yield PUnit.unit)
      fun _ => .pure fun _ _ => rfl).bind fun r => ?_
    cases r with
    | yield _ => exact (ih hTail).imp fun _ _ _ _ => trivial
    | done _ => exact .pure fun _ _ => trivial

open PoolBuilder in
theorem intern_new {c : Constant} {build : Encoder PoolEntry} {b b₁ b₂ : PoolBuilder}
    {e : PoolEntry} {i : UInt16} (h : b.index[c]? = none) (hBuild : build b = .ok (e, b₁))
    (hClaim : claim c b₁ = .ok (i, b₂)) : intern c build b = .ok (i, b₂.filledWith i e) :=
  intern_eq_ok.mpr (.new h hBuild hClaim)

section Constants

open PoolBuilder Constant

def build : Constant → Encoder PoolEntry
  | .utf8 value => do
    let length := (ModifiedUtf8.encode value).length
    if length > 65535 then throw (.stringTooLong length)
    return .utf8 value
  | .integer value => return .integer value
  | .float bits => return .float bits
  | .long value => return .long value
  | .double bits => return .double bits
  | .classRef name => return .classRef (← utf8 name)
  | .string value => return .string (← utf8 value)
  | .member r =>
    return .member r.kind (← className r.owner) (← PoolBuilder.nameAndType ⟨r.name, r.descriptor⟩)
  | .nameAndType value => return .nameAndType (← utf8 value.name) (← utf8 value.descriptor)
  | .methodHandle kind reference => return .methodHandle kind (← memberRef reference)
  | .methodType descriptor => return .methodType (← utf8 descriptor)
  | .dynamic bootstrap value => return .dynamic bootstrap (← PoolBuilder.nameAndType value)
  | .invokeDynamic bootstrap callSite =>
    return .invokeDynamic bootstrap (← PoolBuilder.nameAndType callSite)
  | .module name => return .module (← utf8 name)
  | .package name => return .package (← utf8 name)

theorem constant_eq_intern (c : Constant) : constant c = intern c (build c) := by
  cases c <;> rfl

/-- What holds of two steps in a row if it holds of each, and of asking for a constant if it holds of
making the entry, holds of asking for any constant. -/
theorem constant_induction {M : {α : Type} → Encoder α → Prop}
    (hPure : ∀ {α : Type} (a : α), M (pure a))
    (hBind : ∀ {α β : Type} {x : Encoder α} {f : α → Encoder β}, M x → (∀ a, M (f a)) → M (x >>= f))
    (hThrow : ∀ n, M (throw (.stringTooLong n) : Encoder PoolEntry))
    (hIntern : ∀ d, M (build d) → M (constant d)) (c : Constant) : M (constant c) := by
  have hUtf8 : ∀ s, M (constant (.utf8 s)) := by
    refine fun s => hIntern (.utf8 s) ?_
    dsimp only [build]
    split
    · exact hThrow _
    · exact hPure _
  have hClass : ∀ name, M (constant (.classRef name)) := fun name =>
    hIntern _ (hBind (hUtf8 name) fun _ => hPure _)
  have hNameAndType : ∀ value, M (constant (.nameAndType value)) := fun value =>
    hIntern _ (hBind (hUtf8 value.name) fun _ => hBind (hUtf8 value.descriptor) fun _ => hPure _)
  have hMember : ∀ r, M (constant (.member r)) := fun r =>
    hIntern _ (hBind (hClass r.owner) fun _ => hBind (hNameAndType _) fun _ => hPure _)
  cases c with
  | utf8 value => exact hUtf8 value
  | integer | float | long | double => exact hIntern _ (hPure _)
  | classRef name => exact hClass name
  | string text | methodType text | module text | package text =>
    exact hIntern _ (hBind (hUtf8 text) fun _ => hPure _)
  | member r => exact hMember r
  | nameAndType value => exact hNameAndType value
  | methodHandle kind r => exact hIntern _ (hBind (hMember r) fun _ => hPure _)
  | dynamic bootstrap value | invokeDynamic bootstrap value =>
    exact hIntern _ (hBind (hNameAndType value) fun _ => hPure _)

/-- The entry that is made for `c` only asks for parts of `c`, and stands for `c`. -/
def Makes (c : Constant) : Prop := Emits (· ∈ c.parts) (build c) fun P e => e.StandsFor P c

/-- A step for `c` stays inside every closed set that holds `c`. -/
theorem Makes.emits {c : Constant} (h : Makes c) (hK : Closed K) (hc : K c) :
    Emits K (constant c) fun P i => P.Names i c := by
  rw [constant_eq_intern]
  exact (emits_intern h).mono fun _ hd => hK.of_within hc hd

theorem makes_utf8 (s : String) : Makes (.utf8 s) :=
  .guarded fun hLength => .pure fun _ =>
    ⟨PoolEntry.noConfusion, rfl, Nat.le_of_not_lt hLength, fun _ => .utf8⟩

theorem makes_of_utf8 {c : Constant} {s : String} {entry : UInt16 → PoolEntry}
    (hBuild : build c = do return entry (← utf8 s)) (hParts : c.parts = [.utf8 s])
    (h : ∀ P j, P.Names j (.utf8 s) → (entry j).StandsFor P c) : Makes c := by
  have hMem : Constant.utf8 s ∈ c.parts := by simp [hParts]
  rw [Makes, hBuild]
  exact ((makes_utf8 s).emits (closed_parts c) hMem).bind fun j => .pure fun P hj => h P j hj

theorem makes_classRef (name : String) : Makes (.classRef name) :=
  makes_of_utf8 rfl rfl fun _ _ hj =>
    ⟨PoolEntry.noConfusion, rfl, trivial, fun _ h => .classRef h hj⟩

theorem makes_nameAndType (v : NameAndType) : Makes (.nameAndType v) := by
  have hParts := closed_parts (.nameAndType v)
  refine ((makes_utf8 v.name).emits hParts (by simp [parts, NameAndType.parts])).bind fun j =>
    ((makes_utf8 v.descriptor).emits hParts (by simp [parts, NameAndType.parts])).bind fun k =>
    .pure fun P hk hj => ?_
  exact ⟨PoolEntry.noConfusion, rfl, trivial, fun _ h => .nameAndType h hj hk⟩

theorem makes_member (r : MemberRef) : Makes (.member r) := by
  have hParts := closed_parts (.member r)
  refine ((makes_classRef r.owner).emits hParts (by simp [parts, MemberRef.parts])).bind fun j =>
    ((makes_nameAndType r.nameAndType).emits hParts (by simp [parts, MemberRef.parts])).bind
    fun k => .pure fun P hk hj => ?_
  exact ⟨PoolEntry.noConfusion, rfl, trivial, fun _ h => .member h hj hk⟩

theorem makes (c : Constant) : Makes c := by
  have hParts := closed_parts c
  cases c with
  | utf8 value => exact makes_utf8 value
  | integer value =>
    exact .pure fun P => ⟨PoolEntry.noConfusion, rfl, trivial, fun _ => .integer⟩
  | float bits => exact .pure fun P => ⟨PoolEntry.noConfusion, rfl, trivial, fun _ => .float⟩
  | long value => exact .pure fun P => ⟨PoolEntry.noConfusion, rfl, trivial, fun _ => .long⟩
  | double bits => exact .pure fun P => ⟨PoolEntry.noConfusion, rfl, trivial, fun _ => .double⟩
  | classRef name => exact makes_classRef name
  | string value =>
    exact makes_of_utf8 rfl rfl fun _ _ hj =>
      ⟨PoolEntry.noConfusion, rfl, trivial, fun _ h => .string h hj⟩
  | member r => exact makes_member r
  | nameAndType value => exact makes_nameAndType value
  | methodHandle kind reference =>
    refine ((makes_member reference).emits hParts List.mem_cons_self).bind fun j =>
      .pure fun P hj => ?_
    exact ⟨PoolEntry.noConfusion, rfl, trivial, fun _ h => .methodHandle h hj⟩
  | methodType descriptor =>
    exact makes_of_utf8 rfl rfl fun _ _ hj =>
      ⟨PoolEntry.noConfusion, rfl, trivial, fun _ h => .methodType h hj⟩
  | dynamic bootstrap value =>
    refine ((makes_nameAndType value).emits hParts List.mem_cons_self).bind fun j =>
      .pure fun P hj => ?_
    exact ⟨PoolEntry.noConfusion, rfl, trivial, fun _ h => .dynamic h hj⟩
  | invokeDynamic bootstrap callSite =>
    refine ((makes_nameAndType callSite).emits hParts List.mem_cons_self).bind fun j =>
      .pure fun P hj => ?_
    exact ⟨PoolEntry.noConfusion, rfl, trivial, fun _ h => .invokeDynamic h hj⟩
  | module name =>
    exact makes_of_utf8 rfl rfl fun _ _ hj =>
      ⟨PoolEntry.noConfusion, rfl, trivial, fun _ h => .module h hj⟩
  | package name =>
    exact makes_of_utf8 rfl rfl fun _ _ hj =>
      ⟨PoolEntry.noConfusion, rfl, trivial, fun _ h => .package h hj⟩

theorem emits_constant (hK : Closed K) {c : Constant} (hc : K c) :
    Emits K (constant c) fun P i => P.Names i c := (makes c).emits hK hc

theorem emits_utf8 (hK : Closed K) {s : String} (hs : K (.utf8 s)) :
    Emits K (utf8 s) fun P i => P.Names i (.utf8 s) := emits_constant hK hs

theorem emits_className (hK : Closed K) {n : String} (hn : K (.classRef n)) :
    Emits K (className n) fun P i => P.Names i (.classRef n) := emits_constant hK hn

theorem emits_moduleName (hK : Closed K) {n : String} (hn : K (.module n)) :
    Emits K (moduleName n) fun P i => P.Names i (.module n) := emits_constant hK hn

theorem emits_packageName (hK : Closed K) {n : String} (hn : K (.package n)) :
    Emits K (packageName n) fun P i => P.Names i (.package n) := emits_constant hK hn

theorem emits_nameAndType (hK : Closed K) {v : NameAndType} (hv : K (.nameAndType v)) :
    Emits K (nameAndType v) fun P i => P.Names i (.nameAndType v) := emits_constant hK hv

theorem emits_memberRef (hK : Closed K) {r : MemberRef} (hr : K (.member r)) :
    Emits K (memberRef r) fun P i => P.Names i (.member r) := emits_constant hK hr

theorem emits_optional {γ : Type} {index : γ → Encoder UInt16}
    {lookup : Pool → UInt16 → Except ReadError γ} {a : Option γ}
    (h : ∀ c ∈ a, Emits K (index c) fun P i => 0 < i.toNat ∧ lookup P i = .ok c) :
    Emits K (PoolBuilder.optional index a) fun P i => Pool.optional (lookup P) i = .ok a := by
  cases a with
  | none => exact .pure fun P => by simp [Pool.optional]
  | some c =>
    refine (h c rfl).imp fun P i ⟨hPos, hi⟩ => ?_
    have hNonzero : i ≠ 0 := by
      rintro rfl
      exact absurd hPos (Nat.lt_irrefl 0)
    rw [Pool.optional, if_neg hNonzero, hi]
    rfl

end Constants

section Tables

variable {γ : Type} {item : γ → Encoder Bytes} {as : List γ}

theorem emits_mapM {T : Pool → Bytes → γ → Prop}
    (h : ∀ a ∈ as, Emits K (item a) fun P bs => T P bs a) :
    Emits K (as.mapM item) fun P pieces => List.Forall₂ (T P) pieces as := by
  induction as with
  | nil => exact .pure fun P => .nil
  | cons a as ih =>
    obtain ⟨hHead, hTail⟩ := List.forall_mem_cons.mp h
    rw [List.mapM_cons]
    refine hHead.bind fun bs => (ih hTail).bind fun pieces => .pure fun P hPieces hBs => ?_
    exact .cons hBs hPieces

theorem emits_each {T : Pool → Bytes → γ → Prop}
    (h : ∀ a ∈ as, Emits K (item a) fun P bs => T P bs a) :
    Emits K (each item as) fun P bs =>
      ∃ pieces, List.Forall₂ (T P) pieces as ∧ bs = pieces.flatten :=
  (emits_mapM h).bind fun pieces => .pure fun _ hPieces => ⟨pieces, hPieces, rfl⟩

theorem emits_length2 {table : String} :
    Emits K (length2 table as) fun _ bs =>
      as.length ≤ 65535 ∧ bs = Bytes.u2 (UInt16.ofNat as.length) :=
  .guarded fun hLength => .pure fun _ => ⟨Nat.le_of_not_lt hLength, rfl⟩

theorem emits_length1 {table : String} :
    Emits K (length1 table as) fun _ bs =>
      as.length ≤ 255 ∧ bs = [UInt8.ofNat as.length] :=
  .guarded fun hLength => .pure fun _ => ⟨Nat.le_of_not_lt hLength, rfl⟩

theorem emits_list {table : String} {d : Pool → Decoder γ}
    (h : ∀ a ∈ as, Emits K (item a) fun P bs => Decoder.Reads (d P) bs a) :
    Emits K (list table item as) fun P bs => Decoder.Reads (Decoder.list (d P)) bs as := by
  refine emits_length2.bind fun count => (emits_each h).bind fun bs => .pure fun P hBs hCount => ?_
  obtain ⟨pieces, hPieces, rfl⟩ := hBs
  obtain ⟨hLength, rfl⟩ := hCount
  exact Decoder.reads_list hPieces hLength

theorem emits_shortList {table : String} {d : Pool → Decoder γ}
    (h : ∀ a ∈ as, Emits K (item a) fun P bs => Decoder.Reads (d P) bs a) :
    Emits K (shortList table item as) fun P bs =>
      Decoder.Reads (Decoder.shortList (d P)) bs as := by
  refine emits_length1.bind fun count => (emits_each h).bind fun bs => .pure fun P hBs hCount => ?_
  obtain ⟨pieces, hPieces, rfl⟩ := hBs
  obtain ⟨hLength, rfl⟩ := hCount
  exact Decoder.reads_shortList hPieces hLength

theorem emits_resolved {table : String} {ρ δ : Type} {d : Decoder ρ}
    {resolve : Pool → ρ → Except ReadError δ} {g : Pool → γ → δ}
    (h : ∀ a ∈ as, Emits K (item a) fun P bs =>
      ∃ raw, Decoder.Reads d bs raw ∧ resolve P raw = .ok (g P a)) :
    Emits K (list table item as) fun P bs => ∃ raws,
      Decoder.Reads (Decoder.list d) bs raws ∧ raws.mapM (resolve P) = .ok (as.map (g P)) := by
  refine emits_length2.bind fun count => (emits_each h).bind fun bs => .pure fun P hBs hCount => ?_
  obtain ⟨pieces, hPieces, rfl⟩ := hBs
  obtain ⟨hLength, rfl⟩ := hCount
  have hRaws : ∃ raws, List.Forall₂ (Decoder.Reads d) pieces raws ∧ raws.length = as.length ∧
      List.Forall₂ (fun raw b => resolve P raw = .ok b) raws (as.map (g P)) := by
    clear h hLength
    induction hPieces with
    | nil => exact ⟨[], .nil, rfl, .nil⟩
    | cons hHead _ ih =>
      obtain ⟨raw, hRead, hResolve⟩ := hHead
      obtain ⟨raws, hReads, hEq, hResolves⟩ := ih
      refine ⟨raw :: raws, .cons hRead hReads, ?_, .cons hResolve hResolves⟩
      rw [List.length_cons, hEq, List.length_cons]
  obtain ⟨raws, hReads, hEq, hResolves⟩ := hRaws
  refine ⟨raws, ?_, Outcome.mapM_eq_ok.mpr hResolves⟩
  rw [← hEq] at hLength ⊢
  exact Decoder.reads_list hReads hLength

end Tables

end Encoder

end Renaming
