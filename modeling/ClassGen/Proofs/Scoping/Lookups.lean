import ClassGen.Proofs.Linking.Calls
import ClassGen.Proofs.Scoping.Resolver

/-! The lookups that lowering an expression makes, up to the point where it fails if it fails. They
are those of the names that the expression uses, in order and all of the same locals; the first that
finds nothing is the last, and its error is that of the expression. -/

namespace ClassGen

open Run
open Faithful (after after_ok)

namespace Scoping

/-- A name that lowering looked up, and the storage it found. -/
structure Lookup extends NameUse where
  found : Option Storage

/-- The name as it is looked up in this state. -/
def lookup (cx : BodyContext) (s : LowerState) (u : NameUse) : Lookup :=
  ⟨u, after (cx.storageOf u.name u.span) s none fun storage _ => some storage⟩

mutual

/-- The lookups of an expression that is lowered in this state. -/
def lookups (cx : BodyContext) : Expr → LowerState → List Lookup
  | .ident note name, s => [lookup cx s ⟨name, note.span⟩]
  | .binary note op left right, s =>
    after (cx.resolve note) s [] fun result s =>
      if result.isString && !op.isRelational then
        lookups cx left s ++ after (lowerExpr cx left) s [] fun l s =>
          after (l.appended left.span) s [] fun _ s => lookups cx right s
      else if op = .and ∨ op = .or then
        lookups cx left (s.skip 2) ++ after (lowerExpr cx left) (s.skip 2) [] fun l s =>
          after (l.into .boolean left.span) s [] fun _ s => lookups cx right s
      else if op = .pow then []
      else
        after (cx.plannedType left) s [] fun lt s => after (cx.plannedType right) s [] fun rt s =>
          after (op.plan? lt rt) s [] fun plan s =>
            match plan with
            | none => []
            | some plan =>
              lookups cx left s ++ after (lowerExpr cx left) s [] fun l s =>
                after (l.into plan.operand left.span) s [] fun _ s => lookups cx right s
  | .assign _ (.ident note name) value, s =>
    lookup cx s ⟨name, note.span⟩ :: after (cx.storageOf name note.span) s [] fun _ s =>
      lookups cx value s
  | .assign _ (.property note receiver fields) value, s =>
    match fields.getLast? with
    | none => []
    | some last =>
      lookups cx receiver s ++ after (lowerExpr cx receiver) s [] fun r s =>
        after (cx.receiver r receiver.note) s [] fun r s =>
          after (cx.loadFields r note.span fields.dropLast) s [] fun owner s =>
            after (structField owner.type last note.span) s [] fun _ s => lookups cx value s
  | .call note callee args, s =>
    after (cx.callee callee) s [] fun target s =>
      match target with
      | .function sig =>
        after (checkArity sig.params.length args.length note.span) s [] fun _ s =>
          match sig.linkage with
          | .external _ _ => lookupsOfArgs cx args sig.paramTypes s
          | .user _ =>
            after (args.mapM cx.plannedType) s [] fun types s =>
              after (BodyContext.specialize sig types note.span) s [] fun found s =>
                lookupsOfArgs cx args found.2.1 s
      | .struct decl _ =>
        after (checkArity decl.fields.length args.length note.span) s [] fun _ s =>
          lookupsOfArgs cx args (decl.fields.map Prod.snd) s
      | _ => []
  | .property _ receiver _, s => lookups cx receiver s
  | .step _ _ (.ident note name), s => [lookup cx s ⟨name, note.span⟩]
  | .negate _ operand, s =>
    after (cx.plannedType operand) s [] fun planned s =>
      match planned.numeric? with
      | none => []
      | some _ => lookups cx operand s
  | .not _ operand, s | .group _ operand, s => lookups cx operand s
  | .listOf note entries, s => after (cx.resolve note) s [] fun _ s => lookupsOfEntries cx entries s
  | _, _ => []

def lookupsOfArgs (cx : BodyContext) : List Expr → List Ty → LowerState → List Lookup
  | arg :: args, t :: ts, s =>
    lookups cx arg s ++ after (lowerExpr cx arg) s [] fun v s =>
      after (v.into t arg.span) s [] fun _ s => lookupsOfArgs cx args ts s
  | _, _, _ => []

def lookupsOfEntries (cx : BodyContext) : List Expr → LowerState → List Lookup
  | [], _ => []
  | entry :: entries, s =>
    lookups cx entry s ++ after (lowerExpr cx entry) s [] fun v s =>
      after (v.into .object entry.span) s [] fun _ s => lookupsOfEntries cx entries s

end

theorem lookups_group (cx : BodyContext) (note : Note) (inner : Expr) (s : LowerState) :
    lookups cx (.group note inner) s = lookups cx inner s := by
  rw [lookups]

/-! ### Storage -/

section Storage

variable {cx : BodyContext} {s t : LowerState}

/-- Where a name of the current scope is kept. -/
def stored? (cx : BodyContext) (locals : List ((ScopeId × String) × LocalVar)) (name : String) :
    Option Storage :=
  if (cx.file.scopes.lookup cx.scope name).isSome then cx.storageIn? locals name
    (cx.file.scopes.chain cx.scope)
  else none

theorem storageOf_eq (name : String) (span : Span) : cx.storageOf name span s =
    match stored? cx s.body.locals name with
    | some storage => .ok storage s
    | none => .error (.unknownIdentifier name span) s := by
  have hstorage : cx.storage? name s =
      .ok (cx.storageIn? s.body.locals name (cx.file.scopes.chain cx.scope)) s := rfl
  unfold BodyContext.storageOf stored?
  rw [bind_of_ok hstorage]
  cases cx.file.scopes.lookup cx.scope name with
  | none => rfl
  | some type =>
    cases cx.storageIn? s.body.locals name (cx.file.scopes.chain cx.scope) with
    | none => rfl
    | some storage => rfl

theorem lookup_eq (u : NameUse) : lookup cx s u = ⟨u, stored? cx s.body.locals u.name⟩ := by
  unfold lookup after
  rw [storageOf_eq]
  cases stored? cx s.body.locals u.name with
  | none => rfl
  | some storage => rfl

theorem lookup_congr (h : t.body.locals = s.body.locals) : lookup cx t = lookup cx s := by
  funext u
  rw [lookup_eq, lookup_eq, h]

end Storage

/-! ### Runs and their lookups -/

/-- A lookup that finds nothing is the last, and `e` is its error. -/
def Stops (ls : List Lookup) (e : CodegenError) : Prop :=
  ∀ before l later, ls = before ++ l :: later → l.found = none → later = [] ∧
    e = .unknownIdentifier l.name l.span

/-- The lookups of a run that begins in `s`: of all names in `us` if it succeeds, else up to one of
them. -/
def Reads (cx : BodyContext) (us : List NameUse) (s : LowerState) (ls : List Lookup) {α : Type} :
    EStateM.Result CodegenError LowerState α → Prop
  | .ok _ t => t.body.locals = s.body.locals ∧ ls = us.map (lookup cx s) ∧ ∀ l ∈ ls,
      l.found.isSome = true
  | .error e _ => ls <+: us.map (lookup cx s) ∧ Stops ls e

/-- A success leaves the locals as they are. -/
def Quiet {α : Type} (x : Lower α) (s : LowerState) : Prop :=
  ∀ a t, x s = .ok a t → t.body.locals = s.body.locals

section Runs

variable {cx : BodyContext} {s t : LowerState} {α β : Type} {x : Lower α} {f : α → Lower β}
  {e : CodegenError} {us vs : List NameUse} {ls ms : List Lookup}
  {next : α → LowerState → List Lookup}

theorem Stops.of_found (hfound : ∀ l ∈ ls, l.found.isSome = true) : Stops ls e := by
  rintro before l later rfl hnone
  have hl := hfound l (by simp)
  rw [hnone] at hl
  cases hl

theorem Stops.append (hfound : ∀ l ∈ ls, l.found.isSome = true) (h : Stops ms e) :
    Stops (ls ++ ms) e := by
  intro before l later heq hnone
  rcases List.append_eq_append_iff.mp heq with ⟨first, rfl, hms⟩ | ⟨rest, hls, hms⟩
  · exact h first l later hms hnone
  · cases rest with
    | nil => exact h [] l later hms.symm hnone
    | cons l' rest =>
      obtain ⟨rfl, -⟩ := List.cons.inj hms
      have hl := hfound l (hls ▸ by simp)
      rw [hnone] at hl
      cases hl

theorem Stops.single (l : Lookup) : Stops [l] (.unknownIdentifier l.name l.span) := by
  intro before l' later heq _
  cases before with
  | nil =>
    obtain ⟨rfl, rfl⟩ := List.cons.inj heq
    exact ⟨rfl, rfl⟩
  | cons first before => simp at heq

namespace Reads

/-- The names of a first computation, then those of the next if it succeeds. -/
theorem bind (hx : Reads cx us s ls (x s))
    (hf : ∀ a t, x s = .ok a t → Reads cx vs t (next a t) (f a t)) :
    Reads cx (us ++ vs) s (ls ++ after x s [] next) ((x >>= f) s) := by
  cases hrun : x s with
  | error e t =>
    rw [hrun] at hx
    rw [bind_of_error hrun, after, hrun, List.append_nil, Reads, List.map_append]
    exact ⟨hx.1.trans (List.prefix_append _ _), hx.2⟩
  | ok a t =>
    rw [hrun] at hx
    obtain ⟨hlocals, rfl, hfound⟩ := hx
    have hnext := hf a t hrun
    rw [bind_of_ok hrun, after_ok hrun]
    cases hres : f a t with
    | error e r =>
      rw [hres, Reads, lookup_congr hlocals] at hnext
      rw [Reads, List.map_append]
      exact ⟨(List.prefix_append_right_inj _).mpr hnext.1, hnext.2.append hfound⟩
    | ok b r =>
      rw [hres, Reads, lookup_congr hlocals] at hnext
      rw [Reads, List.map_append]
      refine ⟨hnext.1.trans hlocals, by rw [hnext.2.1], fun l hl => ?_⟩
      exact (List.mem_append.mp hl).elim (hfound l) (hnext.2.2 l)

theorem quiet (h : Quiet x s) : Reads cx [] s [] (x s) := by
  cases hrun : x s with
  | error e t => exact ⟨List.prefix_refl _, .of_found nofun⟩
  | ok a t => exact ⟨h a t hrun, rfl, nofun⟩

theorem after_quiet (hx : Quiet x s)
    (hf : ∀ a t, x s = .ok a t → Reads cx us t (next a t) (f a t)) :
    Reads cx us s (after x s [] next) ((x >>= f) s) := (quiet hx).bind hf

theorem then_quiet (hx : Reads cx us s ls (x s)) (hf : ∀ a t, x s = .ok a t → Quiet (f a) t) :
    Reads cx us s ls ((x >>= f) s) := by
  have h := hx.bind fun a t hrun => quiet (hf a t hrun)
  have hnil : after x s [] (fun _ _ => ([] : List Lookup)) = [] := by
    unfold after
    split <;> rfl
  rwa [hnil, List.append_nil, List.append_nil] at h

/-- Where a run begins matters only for the locals. -/
theorem congr {r : EStateM.Result CodegenError LowerState α} (h : Reads cx us t ls r)
    (heq : t.body.locals = s.body.locals) : Reads cx us s ls r := by
  cases r with
  | ok a u =>
    rw [Reads, lookup_congr heq] at h
    exact ⟨h.1.trans heq, h.2⟩
  | error e u => rwa [Reads, lookup_congr heq] at h

theorem throw (us : List NameUse) (e : CodegenError) : Reads cx us s [] ((throw e : Lower α) s) :=
  ⟨List.nil_prefix, .of_found nofun⟩

theorem storageOf (name : String) (span : Span) :
    Reads cx [⟨name, span⟩] s [lookup cx s ⟨name, span⟩] (cx.storageOf name span s) := by
  rw [storageOf_eq]
  cases hfound : stored? cx s.body.locals name with
  | some storage =>
    refine ⟨rfl, rfl, fun l hl => ?_⟩
    rw [List.mem_singleton.mp hl, lookup_eq]
    exact Option.isSome_of_eq_some hfound
  | none => exact ⟨List.prefix_refl _, .single _⟩

end Reads

end Runs

/-! ### Expressions -/

section Expressions

variable {cx : BodyContext} {s : LowerState}

theorem quiet_pure {α : Type} (a : α) : Quiet (pure a : Lower α) s := fun _ _ h => by
  obtain ⟨-, rfl⟩ := pure_ok.mp h
  rfl

theorem quiet_throw {α : Type} (e : CodegenError) : Quiet (throw e : Lower α) s :=
  fun _ _ h => (throw_ok.mp h).elim

theorem quiet_resolve (note : Note) : Quiet (cx.resolve note) s := fun _ _ h => by
  obtain ⟨-, rfl⟩ := BodyContext.resolve_ok.mp h
  rfl

theorem quiet_into (v : Lowered) (target : Ty) (span : Span) : Quiet (v.into target span) s :=
  fun _ _ h => by
  obtain ⟨-, -, rfl⟩ := Lowered.into_ok.mp h
  rfl

theorem quiet_appended (v : Lowered) (span : Span) : Quiet (v.appended span) s := fun _ _ h => by
  obtain ⟨-, -, rfl⟩ := Lowered.appended_ok.mp h
  rfl

theorem quiet_plannedType (e : Expr) : Quiet (cx.plannedType e) s := fun _ _ h => by
  rw [BodyContext.plannedType_state h]

theorem quiet_bind {α β : Type} {x : Lower α} {f : α → Lower β} (hx : Quiet x s)
    (hf : ∀ a t, x s = .ok a t → Quiet (f a) t) : Quiet (x >>= f) s := fun _ _ h => by
  obtain ⟨a, r, hrun, h⟩ := bind_ok.mp h
  exact (hf a r hrun _ _ h).trans (hx a r hrun)

/-- An expression is lowered with the lookups listed for it. -/
def ExprReads (cx : BodyContext) (e : Expr) : Prop :=
  ∀ s, Reads cx e.uses s (lookups cx e s) (lowerExpr cx e s)

/-- Two operands, each brought into the form that is needed. -/
theorem reads_operands {left right : Expr} {onLeft onRight : Lowered → Lower Code}
    {finish : Code → Code → Lowered} (hl : ExprReads cx left) (hr : ExprReads cx right)
    (hleft : ∀ v s, Quiet (onLeft v) s) (hright : ∀ v s, Quiet (onRight v) s) (s : LowerState) :
    Reads cx (left.uses ++ right.uses) s
      (lookups cx left s ++ after (lowerExpr cx left) s [] fun l s =>
        after (onLeft l) s [] fun _ s => lookups cx right s)
      ((do
        let l ← onLeft (← lowerExpr cx left)
        let r ← onRight (← lowerExpr cx right)
        return finish l r : Lower Lowered) s) :=
  (hl s).bind fun _ _ _ => .after_quiet (hleft _ _) fun _ t _ =>
    (hr t).then_quiet fun _ _ _ => quiet_bind (hright _ _) fun _ _ _ => quiet_pure _

theorem reads_binary {note : Note} {op : BinaryOp} {left right : Expr} (hl : ExprReads cx left)
    (hr : ExprReads cx right) : ExprReads cx (.binary note op left right) := by
  intro s
  rw [lowerExpr, lookups, Expr.uses]
  refine .after_quiet (quiet_resolve note) fun result s _ => ?_
  split
  · exact reads_operands hl hr (fun _ _ => quiet_appended _ _) (fun _ _ => quiet_appended _ _) s
  split
  · have hlabel (s : LowerState) : Lower.newLabel s = .ok s.body.nextLabel (s.skip 1) := rfl
    rw [bind_of_ok (hlabel s), bind_of_ok (hlabel (s.skip 1)), LowerState.skip_skip]
    exact (reads_operands hl hr (fun _ _ => quiet_into _ _ _) (fun _ _ => quiet_into _ _ _)
      (s.skip 2)).congr rfl
  split
  · exact .throw _ _
  refine .after_quiet (quiet_plannedType left) fun lt s _ =>
    .after_quiet (quiet_plannedType right) fun rt s _ =>
    .after_quiet (fun _ _ h => (plan_kept h).locals) fun plan s _ => ?_
  cases plan with
  | none => exact .throw _ _
  | some plan =>
      exact reads_operands hl hr (fun _ _ => quiet_into _ _ _) (fun _ _ => quiet_into _ _ _) s

theorem reads_assign {note target : Note} {name : String} {value : Expr}
    (hvalue : ExprReads cx value) : ExprReads cx (.assign note (.ident target name) value) := by
  intro s
  rw [lowerExpr, lookups, Expr.uses]
  exact (Reads.storageOf name target.span).bind fun _ s _ => (hvalue s).then_quiet fun _ _ _ =>
    quiet_bind (quiet_into _ _ _) fun _ _ _ => quiet_pure _

theorem reads_assignField {note target : Note} {receiver value : Expr} {fields : List String}
    (hreceiver : ExprReads cx receiver) (hvalue : ExprReads cx value) :
    ExprReads cx (.assign note (.property target receiver fields) value) := by
  intro s
  rw [lowerExpr, lookups, Expr.uses]
  cases fields.getLast? with
  | none => exact .throw _ _
  | some last =>
    exact (hreceiver s).bind fun _ _ _ =>
      .after_quiet (fun _ _ h => by rw [(BodyContext.receiver_ok h).1]) fun _ _ _ =>
      .after_quiet (fun _ _ h => by rw [BodyContext.loadFields_state h]) fun _ _ _ =>
        .after_quiet
          (fun _ _ h => by rw [structField_state h]) fun _ s _ => (hvalue s).then_quiet fun _ _ _ =>
          quiet_bind (quiet_into _ _ _) fun _ _ _ => quiet_pure _

theorem reads_property {note : Note} {receiver : Expr} {fields : List String}
    (hreceiver : ExprReads cx receiver) : ExprReads cx (.property note receiver fields) := by
  intro s
  rw [lowerExpr, lookups, Expr.uses]
  exact (hreceiver s).then_quiet fun _ _ _ =>
    quiet_bind (fun _ _ h => by rw [(BodyContext.receiver_ok h).1])
    fun _ _ _ _ _ h => by rw [BodyContext.loadFields_state h]

theorem reads_step {note operand : Note} {op : StepOp} {name : String} :
    ExprReads cx (.step note op (.ident operand name)) := by
  intro s
  rw [lowerExpr, lookups, Expr.uses]
  refine (Reads.storageOf name operand.span).then_quiet fun storage s _ => ?_
  cases storage.type.numeric? with
  | none => exact quiet_throw _
  | some kind => exact quiet_pure _

theorem reads_negate {note : Note} {operand : Expr} (hoperand : ExprReads cx operand) :
    ExprReads cx (.negate note operand) := by
  intro s
  rw [lowerExpr, lookups, Expr.uses]
  refine .after_quiet (quiet_plannedType operand) fun planned s _ => ?_
  cases planned.numeric? with
  | none => exact .throw _ _
  | some kind =>
    exact (hoperand s).then_quiet fun _ _ _ => quiet_bind (quiet_into _ _ _) fun _ _ _ =>
      quiet_pure _

/-- Arguments, as many as there are types. -/
def ArgsRead (cx : BodyContext) (args : List Expr) : Prop :=
  ∀ ts s, args.length = ts.length → Reads cx (usesOf args) s (lookupsOfArgs cx args ts s)
    (lowerArgs cx args ts s)

theorem quiet_checkArity (expected found : Nat) (span : Span) :
    Quiet (checkArity expected found span) s := fun _ _ h => by
  obtain ⟨-, rfl⟩ := checkArity_ok.mp h
  rfl

theorem reads_call {note : Note} {callee : Expr} {args : List Expr} (hargs : ArgsRead cx args) :
    ExprReads cx (.call note callee args) := by
  intro s
  rw [lowerExpr, lookups, Expr.uses]
  refine .after_quiet (fun _ _ h => by rw [BodyContext.callee_state h]) fun target s _ => ?_
  cases target with
  | function sig =>
    refine .after_quiet (quiet_checkArity _ _ _) fun _ s harity => ?_
    have hlength := (checkArity_ok.mp harity).1
    cases hlink : sig.linkage with
    | external owner method =>
      refine (hargs sig.paramTypes s ?_).then_quiet fun _ _ _ => quiet_pure _
      rw [Signature.paramTypes, List.length_map, hlength]
    | user owner =>
      refine .after_quiet
          (fun _ _ h => by rw [BodyContext.mapM_plannedType_state h]) fun types s _ =>
        .after_quiet (fun _ _ h => by rw [(BodyContext.specialize_ok h).2]) fun found s hfound => ?_
      obtain ⟨map, params, ret⟩ := found
      refine (hargs params s ?_).then_quiet fun _ _ _ => quiet_bind (fun _ _ h => ?_) fun _ _ _ =>
        quiet_pure _
      · rw [specialize_length hfound, hlength]
      · obtain ⟨_, _, rfl⟩ := BodyContext.linkedUnit_ok h
        rfl
  | struct decl bindings =>
    refine .after_quiet (quiet_checkArity _ _ _) fun _ s harity => ?_
    refine (hargs (decl.fields.map Prod.snd) s ?_).then_quiet fun _ _ _ =>
      quiet_bind (quiet_resolve note) fun _ _ _ => quiet_pure _
    rw [List.length_map, (checkArity_ok.mp harity).1]
  | _ => exact .throw _ _

/-- Expressions in which no name is evaluated. -/
theorem reads_nothing {e : Expr} (huses : e.uses = []) (hlookups : ∀ s, lookups cx e s = [])
    (hquiet : ∀ s, Quiet (lowerExpr cx e) s) : ExprReads cx e := by
  intro s
  rw [huses, hlookups]
  exact .quiet (hquiet s)

mutual

theorem lowerExpr_reads : ∀ e : Expr, ExprReads cx e
  | .binary _ _ left right => reads_binary (lowerExpr_reads left) (lowerExpr_reads right)
  | .assign _ target value => by
    cases target with
    | ident note name => exact reads_assign (lowerExpr_reads value)
    | property note receiver fields =>
        exact reads_assignField (lowerExpr_reads receiver) (lowerExpr_reads value)
    | _ =>
      refine reads_nothing rfl (fun _ => rfl) fun s => ?_
      rw [lowerExpr] <;> first | exact quiet_throw _ | nofun
  | .call _ _ args => reads_call (lowerArgs_reads args)
  | .property _ receiver _ => reads_property (lowerExpr_reads receiver)
  | .step _ _ operand => by
    cases operand with
    | ident note name => exact reads_step
    | _ =>
      refine reads_nothing rfl (fun _ => rfl) fun s => ?_
      rw [lowerExpr] <;> first | exact quiet_throw _ | nofun
  | .negate _ operand => reads_negate (lowerExpr_reads operand)
  | .ident note name => fun s => by
    rw [lowerExpr, lookups, Expr.uses]
    exact (Reads.storageOf name note.span).then_quiet fun _ _ _ => quiet_pure _
  | .not note operand => fun s => by
    rw [lowerExpr, lookups, Expr.uses]
    exact (lowerExpr_reads operand s).then_quiet fun _ _ _ =>
      quiet_bind (quiet_into _ _ _) fun _ _ _ => quiet_pure _
  | .group note operand => fun s => by
    rw [lowerExpr, lookups_group, Expr.uses_group]
    exact lowerExpr_reads operand s
  | .listOf note entries => fun s => by
    rw [lowerExpr, lookups, Expr.uses]
    exact .after_quiet (quiet_resolve note) fun _ s _ =>
      (lowerEntries_reads entries s).then_quiet fun _ _ _ => quiet_pure _
  | .literal _ _ | .emptyList _ | .index _ _ _ | .moduleMember _ _ _ | .enumValue _ _ _
  | .lambda _ | .empty _ | .bad _ => by
    refine reads_nothing rfl (fun _ => rfl) fun s => ?_
    rw [lowerExpr]
    first
    | exact quiet_pure _
    | exact quiet_throw _
    | exact quiet_bind (quiet_resolve _) fun _ _ _ => quiet_pure _

theorem lowerArgs_reads : ∀ args : List Expr, ArgsRead cx args
  | [], [], s, _ => .quiet (quiet_pure [])
  | [], _ :: _, _, h | _ :: _, [], _, h => nomatch h
  | arg :: args, t :: ts, s, h => by
    rw [lowerArgs, lookupsOfArgs, usesOf]
    exact (lowerExpr_reads arg s).bind fun _ _ _ => .after_quiet (quiet_into _ _ _) fun _ s _ =>
      (lowerArgs_reads args ts s (Nat.succ.inj h)).then_quiet fun _ _ _ => quiet_pure _

theorem lowerEntries_reads : ∀ (entries : List Expr) (s : LowerState),
    Reads cx (usesOf entries) s (lookupsOfEntries cx entries s) (lowerEntries cx entries s)
  | [], s => by
    rw [lowerEntries, lookupsOfEntries, usesOf]
    exact .quiet (quiet_pure _)
  | entry :: entries, s => by
    rw [lowerEntries, lookupsOfEntries, usesOf]
    exact (lowerExpr_reads entry s).bind fun _ _ _ => .after_quiet (quiet_into _ _ _) fun _ s _ =>
      (lowerEntries_reads entries s).then_quiet fun _ _ _ => quiet_pure _

end

end Expressions

end Scoping

end ClassGen
