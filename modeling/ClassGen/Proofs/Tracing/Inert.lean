import ClassGen.Proofs.Lowering.Actions

/-! The trace has no influence. Whatever events were recorded before, and whatever was noted down so
that a reuse is traced once, lowering gives the same answer or fails with the same error, and leaves
the same methods, units and requests. -/

namespace ClassGen

open Run

/-- Without the trace, and without the record of reuse that is kept for it. -/
def LowerState.untraced (s : LowerState) : LowerState :=
  { s with file.log := [], file.reused := [] }

namespace Lower

/-- A result, success or failure, without the trace. -/
def untraced {α : Type} : EStateM.Result CodegenError LowerState α → EStateM.Result CodegenError
    LowerState α
  | .ok a s => .ok a s.untraced
  | .error e s => .error e s.untraced

/-- Nothing but the trace depends on the trace. -/
def Inert (α : Type) (x : Lower α) : Prop := ∀ s, untraced (x s.untraced) = untraced (x s)

namespace Inert

variable {α β : Type} {x : Lower α} {s s' : LowerState}

/-- States that are the same but for their traces give results that are. -/
theorem agrees (hx : Inert α x) (h : s.untraced = s'.untraced) :
    untraced (x s) = untraced (x s') := by
  rw [← hx s, h, hx s']

/-- Two runs that differ in the trace both succeed, with the same answer, or both fail, with the
same error. -/
theorem runs (hx : Inert α x) (h : s.untraced = s'.untraced) :
    (∃ a t t', x s = .ok a t ∧ x s' = .ok a t' ∧ t.untraced = t'.untraced) ∨
      ∃ e t t', x s = .error e t ∧ x s' = .error e t' ∧ t.untraced = t'.untraced := by
  have hsame := hx.agrees h
  cases hleft : x s with
  | ok a t =>
    cases hright : x s' with
    | ok b t' =>
      rw [hleft, hright] at hsame
      obtain ⟨rfl, ht⟩ := EStateM.Result.ok.inj hsame
      exact .inl ⟨a, t, t', rfl, rfl, ht⟩
    | error e t' => simp [hleft, hright, untraced] at hsame
  | error e t =>
    cases hright : x s' with
    | ok b t' => simp [hleft, hright, untraced] at hsame
    | error e' t' =>
      rw [hleft, hright] at hsame
      obtain ⟨rfl, ht⟩ := EStateM.Result.error.inj hsame
      exact .inr ⟨e, t, t', rfl, rfl, ht⟩

theorem bind {f : α → Lower β} (hx : Inert α x) (hf : ∀ a, Inert β (f a)) : Inert β (x >>= f) := by
  intro s
  have hsame : s.untraced.untraced = s.untraced := rfl
  rcases hx.runs hsame with ⟨a, t, t', hleft, hright, ht⟩ | ⟨e, t, t', hleft, hright, ht⟩
  · rw [bind_of_ok hleft, bind_of_ok hright]
    exact (hf a).agrees ht
  · rw [bind_of_error hleft, bind_of_error hright, untraced, untraced, ht]

/-- A computation that reads the state, but not the trace. -/
theorem get_bind {f : LowerState → Lower α} (hf : ∀ s, Inert α (f s))
    (hread : ∀ s, f s.untraced = f s) : Inert α (get >>= f) := by
  intro s
  show untraced (f s.untraced s.untraced) = untraced (f s s)
  rw [hread, hf s s]

theorem isolated (start : BodyState) (hx : Inert α x) : Inert (α × BodyState)
    (Lower.isolated start x) := by
  intro s
  have hstart : LowerState.untraced ⟨s.untraced.file, start⟩ =
      LowerState.untraced ⟨s.file, start⟩ := rfl
  have hback {t t' : LowerState} (ht : t.untraced = t'.untraced) :
      LowerState.untraced ⟨t.file, s.body⟩ = LowerState.untraced ⟨t'.file, s.body⟩ :=
    congrArg (fun u => LowerState.mk u.file s.body) ht
  unfold Lower.isolated
  rcases hx.runs hstart with ⟨a, t, t', hleft, hright, ht⟩ | ⟨e, t, t', hleft, hright, ht⟩
  · have hbody : t.untraced.body = t'.untraced.body := congrArg LowerState.body ht
    rw [hleft, hright]
    show EStateM.Result.ok (a, t.untraced.body) (LowerState.untraced ⟨t.file, s.body⟩) =
      .ok (a, t'.untraced.body) (LowerState.untraced ⟨t'.file, s.body⟩)
    rw [hbody, hback ht]
  · rw [hleft, hright]
    exact congrArg (EStateM.Result.error e) (hback ht)

end Inert

/-! ### Lowering -/

theorem requireInstance_inert (sig : Signature) (map : Bindings) (descriptor : String) :
    Inert Unit (requireInstance sig map descriptor) := by
  intro s
  obtain ⟨_, hleft, -⟩ := requireInstance_run sig map descriptor s.untraced
  obtain ⟨_, hright, -⟩ := requireInstance_run sig map descriptor s
  rw [hleft, hright]
  rfl

theorem isEmitted_inert (plan : MethodPlan) : Inert Bool (isEmitted plan) := by
  intro s
  obtain ⟨_, _, hleft, -⟩ := isEmitted_run plan s.untraced
  obtain ⟨_, _, hright, -⟩ := isEmitted_run plan s
  rw [hleft, hright]
  rfl

theorem inert_compositional : Compositional Inert where
  pure _ _ := rfl
  throw _ _ := rfl
  bind := .bind
  newLabel _ := rfl
  newSlot _ _ := rfl
  declareLocal _ _ _ _ := rfl
  storage? _ _ _ := rfl
  requireInstance := requireInstance_inert

theorem log_inert (e : Event) : Inert Unit (Lower.log e) := fun _ => rfl

theorem addMethod_inert (m : Method) : Inert Unit (Lower.addMethod m) := fun _ => rfl

theorem lowerStruct_inert (file : FileContext) (scope : ScopeId) (name : String) (span : Span) :
    Inert Unit (lowerStruct file scope name span) := by
  have hunit (decl : StructDef) : Inert ClassUnit (decl.unit file) :=
    (inert_compositional.startFrame file _ _ _).bind fun _ =>
      (inert_compositional.startFrame file _ _ _).bind fun _ =>
      inert_compositional.pure _
  unfold lowerStruct
  split
  · exact inert_compositional.throw _
  · refine .get_bind (fun s => ?_) fun _ => rfl
    split_ifs
    · exact inert_compositional.pure _
    · exact (hunit _).bind fun _ => (log_inert _).bind fun _ => fun _ => rfl
  · exact inert_compositional.throw _

theorem inert_nesting : Nesting fun _ => Inert where
  compositional _ := inert_compositional
  statement _ _ := log_inert _
  defer _ _ _ := rfl
  struct _ := lowerStruct_inert
  method _ file plan b hbody := by
    obtain ⟨scope, body, span⟩ := b
    rw [lowerBody]
    refine (isEmitted_inert plan).bind fun emitted => ?_
    split_ifs
    · exact inert_compositional.pure _
    · exact (log_inert _).bind fun _ => (inert_compositional.startFrame file _ _ _).bind
          fun frame =>
        ((hbody frame).isolated _).bind fun _ => (log_inert _).bind fun _ => addMethod_inert _

theorem lowerPending_inert (file : FileContext) (name : String) :
    Inert Unit (lowerPending file name) := by
  intro s
  have hgenerics : s.untraced.file.generics = s.file.generics := rfl
  have htable : s.untraced.file.table = s.file.table := rfl
  unfold lowerPending
  rw [bind_of_ok (get_ok.mpr ⟨rfl, rfl⟩), bind_of_ok (get_ok.mpr ⟨rfl, rfl⟩), hgenerics, htable]
  cases s.file.generics.lookup name with
  | none => rfl
  | some decl =>
    cases s.file.table.get? name with
    | none => rfl
    | some entry =>
      have hhanded : (s.untraced.handedOut name).untraced = (s.handedOut name).untraced := rfl
      exact (inert_compositional.forM
        (inert_nesting.lowerInstance file decl entry.sig) _).agrees hhanded

theorem drain_inert (file : FileContext) : ∀ rounds, Inert Bool (drain file rounds)
  | 0 => .get_bind (fun _ => inert_compositional.pure _) fun _ => rfl
  | rounds + 1 => by
    refine .get_bind (fun s => ?_) fun _ => rfl
    split
    · exact inert_compositional.pure _
    · exact (inert_compositional.forM (lowerPending_inert file) _).bind fun _ =>
        drain_inert file rounds

theorem scaffolding_inert (file : FileContext) (emitInstance : Bool) :
    Inert Unit (file.scaffolding emitInstance) := by
  refine (inert_compositional.startFrame file _ _ _).bind fun _ =>
    (addMethod_inert _).bind fun _ => ?_
  split_ifs
  · exact (inert_compositional.startFrame file _ _ _).bind fun _ => addMethod_inert _
  · exact inert_compositional.pure _

/-- A whole file is lowered in the same way whatever the trace holds at the start. -/
theorem lowerFile_inert (rounds : Nat) (file : FileContext) (emitInstance : Bool)
    (body : List Stmt) : Inert Bool (lowerFile rounds file emitInstance body) :=
  (scaffolding_inert file emitInstance).bind fun _ =>
    (inert_compositional.forM (inert_nesting.lowerTop file) body).bind fun _ =>
      (drain_inert file rounds).bind fun _ =>
      .get_bind (fun _ => (log_inert _).bind fun _ => inert_compositional.pure _) fun _ => rfl

end Lower

end ClassGen
