import ClassGen.Proofs.Linking.Bodies
import ClassGen.Proofs.Tracing.Inert

/-! The order of events. A trace is read with a stack of the open methods: a method closes before
those around it, a statement belongs to the innermost, and each method that closes is added to the
unit at that moment. -/

namespace ClassGen

open Run

namespace Event

/-- Reads an event, with the methods that are open before it, innermost first, and answers with
those open after it. Only the innermost can be closed, and a statement must name it. -/
def follow (stack : List (String × String)) : Event → Option (List (String × String))
  | opened method descriptor => some ((method, descriptor) :: stack)
  | closed method descriptor => if stack.head? = some (method, descriptor) then some stack.tail
      else none
  | statement _ method => if stack.head?.map Prod.fst = some method then some stack else none
  | deferred _ | reused _ _ | requested _ _ _ | struct _ _ _ | finished _ _ _ => some stack

/-- Name and descriptor of a method that is closed. -/
def closed? : Event → Option (String × String)
  | closed method descriptor => some (method, descriptor)
  | _ => none

/-- Neither about a method under construction nor about a statement of one. -/
def isPlain : Event → Bool
  | opened _ _ | closed _ _ | statement _ _ => false
  | _ => true

/-- Inside a method of this name, or outside all methods, the events leave open just what was open.
-/
def Nested (inside : Option String) (events : List Event) : Prop :=
  ∀ stack, stack.head?.map Prod.fst = inside → events.foldlM follow stack = some stack

variable {inside : Option String} {events others : List Event}

theorem follow_plain {e : Event} (h : e.isPlain) (stack : List (String × String)) :
    follow stack e = some stack := by
  cases e <;> first | rfl | cases h

theorem closed?_plain {e : Event} (h : e.isPlain) : e.closed? = none := by
  cases e <;> first | rfl | cases h

theorem nested_plain (h : ∀ e ∈ events, e.isPlain) : Nested inside events := by
  intro stack hstack
  induction events with
  | nil => rfl
  | cons e rest ih =>
    rw [List.foldlM_cons, follow_plain (h e List.mem_cons_self)]
    exact ih fun e' he' => h e' (List.mem_cons_of_mem e he')

theorem filterMap_closed?_plain (h : ∀ e ∈ events, e.isPlain) : events.filterMap closed? = [] :=
  List.filterMap_eq_nil_iff.mpr fun e he => closed?_plain (h e he)

theorem nested_statement (kind name : String) : Nested (some name) [statement kind name] := by
  intro stack hstack
  rw [List.foldlM_cons, follow, if_pos hstack]
  rfl

theorem Nested.append (h : Nested inside events) (ho : Nested inside others) :
    Nested inside (events ++ others) := by
  intro stack hstack
  rw [List.foldlM_append, h stack hstack]
  exact ho stack hstack

/-- What happens inside a method, between its brackets. -/
theorem Nested.method {name : String} (h : Nested (some name) events) (descriptor : String) :
    Nested inside (opened name descriptor :: (events ++ [closed name descriptor])) := by
  intro stack hstack
  have hinner : events.foldlM follow ((name, descriptor) :: stack) =
      some ((name, descriptor) :: stack) := h _ rfl
  rw [List.foldlM_cons, follow, Option.bind_eq_bind, Option.bind_some, List.foldlM_append, hinner,
    Option.bind_eq_bind, Option.bind_some, List.foldlM_cons, follow, if_pos List.head?_cons]
  rfl

end Event

namespace Lower

/-- From one state to the other the trace grew by events in good order, and each method that they
close is one that the unit grew by. -/
def Recorded (inside : Option String) (s t : LowerState) : Prop :=
  ∃ events added, t.file.log = events.reverse ++ s.file.log ∧ t.file.methods =
    s.file.methods ++ added ∧
    Event.Nested inside events ∧
    events.filterMap Event.closed? = added.map fun m => (m.name, m.descriptor)

namespace Recorded

variable {inside : Option String} {s t u : LowerState}

/-- Only events between methods. -/
theorem plain (events : List Event) (hlog : t.file.log = events ++ s.file.log)
    (hmethods : t.file.methods = s.file.methods) (hplain : ∀ e ∈ events, e.isPlain) :
    Recorded inside s t := by
  have hreverse : ∀ e ∈ events.reverse, e.isPlain := fun e he => hplain e (List.mem_reverse.mp he)
  refine ⟨events.reverse, [], ?_, ?_, Event.nested_plain hreverse,
    Event.filterMap_closed?_plain hreverse⟩
  · rw [List.reverse_reverse, hlog]
  · rw [List.append_nil, hmethods]

theorem of_file (h : t.file = s.file) : Recorded inside s t :=
  plain [] (by rw [h, List.nil_append]) (by rw [h]) (List.forall_mem_nil _)

theorem trans (hst : Recorded inside s t) (htu : Recorded inside t u) : Recorded inside s u := by
  obtain ⟨events, added, hlog, hmethods, hnested, hclosed⟩ := hst
  obtain ⟨events', added', hlog', hmethods', hnested', hclosed'⟩ := htu
  refine ⟨events ++ events', added ++ added', ?_, ?_, hnested.append hnested', ?_⟩
  · rw [hlog', hlog, List.reverse_append, List.append_assoc]
  · rw [hmethods', hmethods, List.append_assoc]
  · rw [List.filterMap_append, List.map_append, hclosed, hclosed']

end Recorded

/-- Success is recorded. -/
def Records (inside : Option String) (α : Type) (x : Lower α) : Prop :=
  ∀ {s t : LowerState} {a : α}, x s = .ok a t → Recorded inside s t

namespace Records

variable {inside : Option String} {α β : Type} {x : Lower α}

theorem bind {f : α → Lower β} (hx : Records inside α x) (hf : ∀ a, Records inside β (f a)) :
    Records inside β (x >>= f) := by
  intro s t b h
  obtain ⟨a, r, hfirst, hrest⟩ := bind_ok.mp h
  exact (hx hfirst).trans (hf a hrest)

end Records

theorem records_compositional (inside : Option String) : Compositional (Records inside) where
  pure a := by
    intro s t _ h
    exact .of_file (congrArg LowerState.file (pure_ok.mp h).2.symm)
  throw e := by
    intro s t _ h
    exact (throw_ok.mp h).elim
  bind := .bind
  newLabel := by
    intro s t _ h
    obtain ⟨-, rfl⟩ := newLabel_ok.mp h
    exact .of_file rfl
  newSlot repr := by
    intro s t _ h
    obtain ⟨-, rfl⟩ := newSlot_ok.mp h
    exact .of_file rfl
  declareLocal scope name type := by
    intro s t _ h
    obtain ⟨-, rfl⟩ := declareLocal_ok.mp h
    exact .of_file rfl
  storage? cx name := by
    intro s t _ h
    obtain ⟨-, rfl⟩ := BodyContext.storage?_ok.mp h
    exact .of_file rfl
  requireInstance sig map descriptor := by
    intro s t _ h
    obtain ⟨events, hrun, hevents⟩ := requireInstance_run sig map descriptor s
    obtain ⟨-, rfl⟩ := EStateM.Result.ok.inj (hrun.symm.trans h)
    refine .plain events rfl rfl fun e he => ?_
    obtain ⟨_, rfl⟩ := hevents e he
    rfl

theorem defer_records (inside : Option String) (decl : FunctionDecl) :
    Records inside Unit (defer decl) := by
  intro s t _ h
  simp only [defer, bind_ok, log_ok, modify_ok] at h
  obtain ⟨_, _, rfl, rfl⟩ := h
  exact .plain [.deferred decl.name] rfl rfl (by simp [Event.isPlain])

theorem lowerStruct_records (inside : Option String) (file : FileContext) (scope : ScopeId)
    (name : String) (span : Span) : Records inside Unit (lowerStruct file scope name span) := by
  intro s t _ h
  obtain rfl | ⟨decl, _, _, -, -, rfl⟩ := lowerStruct_ok h
  · exact .of_file rfl
  · exact .plain [.struct decl.name decl.qualifiedName decl.fields.length] rfl rfl
      (by simp [Event.isPlain])

/-- A method opens before all that is in its body, and when it closes the unit has it. -/
theorem lowerBody_records (inside : Option String) (file : FileContext)
    (plan : MethodPlan) (b : Block)
    (hbody : ∀ frame, Records (some frame.name) Code (lowerStmts (plan.context file frame b.scope)
      [] b.body)) :
    Records inside Unit (lowerBody file plan b) := by
  intro s t _ h
  cases hnew : plan.emitted s with
  | true =>
    obtain ⟨reused, events, rfl, hevents⟩ := lowerBody_reused hnew h
    refine .plain events rfl rfl fun e he => ?_
    rw [hevents e he]
    rfl
  | false =>
    obtain ⟨frame, code, u, hframe, hcode, rfl⟩ := (lowerBody_new hnew).mp h
    obtain ⟨hname, hdescriptor⟩ := Frame.start_named hframe
    obtain ⟨events, added, hlog, hmethods, hnested, hclosed⟩ := hbody frame hcode
    refine ⟨
      .opened plan.name plan.descriptor :: (events ++ [Event.closed plan.name plan.descriptor]),
      added ++ [plan.method frame u.body.nextSlot code], ?_, ?_, (hname ▸ hnested).method _, ?_⟩
    · show .closed plan.name plan.descriptor :: u.file.log = _
      rw [hlog]
      simp [MethodPlan.opened, LowerState.logged]
    · show u.file.methods ++ [plan.method frame u.body.nextSlot code] = _
      rw [hmethods, List.append_assoc]
      rfl
    · rw [List.filterMap_cons_none rfl, List.filterMap_append, hclosed, List.map_append]
      simp [Event.closed?, MethodPlan.method, Frame.finish, hname, hdescriptor]

theorem records_nesting : Nesting Records where
  compositional := records_compositional
  statement kind name := by
    intro s t _ h
    obtain rfl := log_ok.mp h
    exact ⟨[.statement kind name], [], rfl, (List.append_nil _).symm,
      Event.nested_statement kind name, rfl⟩
  defer := defer_records
  struct := lowerStruct_records
  method := lowerBody_records

/-! ### Files -/

theorem lowerPending_records (file : FileContext) (name : String) :
    Records none Unit (lowerPending file name) := by
  intro s t _ h
  obtain ⟨decl, -, h⟩ := lowerPending_ok.mp h
  cases hentry : s.file.table.get? name with
  | none =>
    rw [hentry] at h
    exact .of_file (congrArg LowerState.file h.symm)
  | some entry =>
    rw [hentry] at h
    have hhanded : Recorded none s (s.handedOut name) := .plain [] rfl rfl (List.forall_mem_nil _)
    exact hhanded.trans ((records_compositional none).forM
      (records_nesting.lowerInstance file decl entry.sig) _ h)

theorem drain_records (file : FileContext) (rounds : Nat) :
    Records none Bool (drain file rounds) := by
  induction rounds with
  | zero =>
    intro s t _ h
    exact .of_file (congrArg LowerState.file (drain_zero.mp h).2.symm)
  | succ rounds ih =>
    intro s t _ h
    have hround := drain_succ.mp h
    split_ifs at hround
    · exact .of_file (congrArg LowerState.file hround.2.symm)
    · obtain ⟨u, hnames, hrest⟩ := hround
      exact ((records_compositional none).forM (lowerPending_records file) _ hnames).trans
        (ih hrest)

/-- Names and descriptors of the methods that every unit of a file begins with. -/
def scaffoldingKeys (emitInstance : Bool) : List (String × String) :=
  (Library.constructor, "()V") :: if emitInstance then [(Library.classInit, "()V")] else []

/-- The scaffolding is not traced. -/
theorem scaffolding_untraced {file : FileContext} {emitInstance : Bool} {s t : LowerState}
    (h : file.scaffolding emitInstance s = .ok () t) :
    t.file.log = s.file.log ∧ ∃ scaffolding, t.file.methods = s.file.methods ++ scaffolding ∧
      (scaffolding.map fun m => (m.name, m.descriptor)) = scaffoldingKeys emitInstance := by
  simp only [FileContext.scaffolding, bind_ok, startFrame_ok, Lower.addMethod, modify_ok] at h
  obtain ⟨init, _, ⟨hinit, rfl⟩, _, _, rfl, h⟩ := h
  obtain ⟨hname, hdescriptor⟩ := Frame.start_named hinit
  cases emitInstance with
  | false =>
    obtain ⟨-, rfl⟩ := pure_ok.mp h
    exact ⟨rfl, _, rfl, by simp [scaffoldingKeys, Frame.finish, hname, hdescriptor]⟩
  | true =>
    simp only [if_true, bind_ok, startFrame_ok, modify_ok] at h
    obtain ⟨clinit, _, ⟨hclinit, rfl⟩, rfl⟩ := h
    obtain ⟨hname', hdescriptor'⟩ := Frame.start_named hclinit
    exact ⟨rfl, _, List.append_assoc _ _ _, by
      simp [scaffoldingKeys, Frame.finish, hname, hdescriptor, hname', hdescriptor']⟩

/-- After the scaffolding, a whole file is recorded. -/
theorem lowerFile_records {rounds : Nat} {file : FileContext} {emitInstance complete : Bool}
    {body : List Stmt} {s t : LowerState}
    (h : lowerFile rounds file emitInstance body s = .ok complete t) :
    ∃ base, file.scaffolding emitInstance s = .ok () base ∧ Recorded none base t := by
  obtain ⟨base, s₂, s₃, hscaffolding, htop, hdrain, rfl⟩ := lowerFile_ok.mp h
  have hbody := (records_compositional none).forM (records_nesting.lowerTop file) body htop
  refine ⟨base, hscaffolding, (hbody.trans (drain_records file rounds hdrain)).trans ?_⟩
  exact .plain [.finished file.unitName s₃.file.methods.length s₃.file.structs.length] rfl rfl
    (by simp [Event.isPlain])

end Lower

namespace SourceFile

/-- The option has no part in the context of the file. -/
theorem ofSource_trace (f : SourceFile) (options : Options) (trace : Bool) :
    FileContext.ofSource f { options with trace } = FileContext.ofSource f options := rfl

/-- A successful compilation with a trace, in terms of what was recorded. -/
theorem compileWithin_traced {f : SourceFile} {options : Options} {rounds : Nat} {c : CompiledFile}
    {trace : List Event} (h : f.compileWithin rounds { options with trace := true } =
      some ⟨.ok c, trace⟩) :
    ∃ s, lowerFile rounds (FileContext.ofSource f options) options.emitInstance f.body {} =
      .ok true s ∧
      s.file.methods = c.fileUnit.methods ∧ s.file.log.reverse = trace := by
  simp only [compileWithin, ofSource_trace, if_true] at h
  cases hrun : lowerFile rounds (FileContext.ofSource f options) options.emitInstance f.body {} with
  | error e s => simp [hrun] at h
  | ok complete s =>
    cases complete with
    | false => simp [hrun] at h
    | true =>
      simp only [hrun, Option.some.injEq, Outcome.mk.injEq, Except.ok.injEq] at h
      obtain ⟨rfl, rfl⟩ := h
      exact ⟨s, rfl, rfl, rfl⟩

/-- Tracing changes no result, and lowering never depends on what was traced. The trace of a file
that compiles, read with a stack of the open methods, ends with none open, and the methods that it
closes are those after the scaffolding. -/
theorem compile_trace_faithful (f : SourceFile) (options : Options) (rounds : Nat) :
    (f.compileWithin rounds { options with trace := true }).map Outcome.result =
        (f.compileWithin rounds { options with trace := false }).map Outcome.result ∧
      (∀ s r : LowerState, s.untraced = r.untraced →
        Lower.untraced (lowerFile rounds (FileContext.ofSource f options)
          options.emitInstance f.body s) =
          Lower.untraced (lowerFile rounds (FileContext.ofSource f options) options.emitInstance
            f.body r)) ∧
      ∀ c trace, f.compileWithin rounds { options with trace := true } = some ⟨.ok c, trace⟩ →
        trace.foldlM Event.follow [] = some [] ∧
          ∃ scaffolding methods, c.fileUnit.methods = scaffolding ++ methods ∧
            (scaffolding.map fun m => (m.name, m.descriptor)) =
              Lower.scaffoldingKeys options.emitInstance ∧
            (methods.map fun m => (m.name, m.descriptor)) = trace.filterMap Event.closed? := by
  refine ⟨?_, fun s r hsame => (Lower.lowerFile_inert _ _ _ _).agrees hsame, fun c trace h => ?_⟩
  · simp only [compileWithin, ofSource_trace]
    cases lowerFile rounds (FileContext.ofSource f options) options.emitInstance f.body {} with
    | error e s => rfl
    | ok complete s => cases complete <;> rfl
  · obtain ⟨s, hrun, hmethods, rfl⟩ := compileWithin_traced h
    obtain ⟨base, hscaffolding, events, added, hlog, hadded, hnested, hclosed⟩ :=
      Lower.lowerFile_records hrun
    obtain ⟨hempty, scaffolding, hbase, hkeys⟩ := Lower.scaffolding_untraced hscaffolding
    have htrace : s.file.log.reverse = events := by
      rw [hlog, hempty, List.append_nil, List.reverse_reverse]
    rw [htrace]
    refine ⟨hnested [] rfl, scaffolding, added, ?_, hkeys, hclosed.symm⟩
    rw [← hmethods, hadded, hbase, List.nil_append]

/-- A function inside a function, and a generic one that both call. -/
def bracketsSource : SourceFile :=
  let name (t : Ty) (x : String) : Expr := .ident ⟨t, {}⟩ x
  let call (t : Ty) (f : String) (arg : Expr) : Expr := .call ⟨t, {}⟩ (name .void f) [arg]
  let item : Ty := .generic "T"
  { path := "demo/brackets.ix"
    scopes := ⟨#[
      { parent := none
        vars := [("same", .function ⟨"same", [("x", item)], item, .user none⟩),
          ("main", .function ⟨"main", [], .void, .user none⟩)] },
      { parent := some 0, vars := [("x", item)] },
      { parent := some 0
        vars := [("inner", .function ⟨"inner", [("x", .int)], .int, .user none⟩)] },
      { parent := some 2, vars := [("x", .int)] }]⟩
    body := [
      .function ⟨"same", ⟨1, [.ret {} (name item "x")], {}⟩, {}⟩,
      .function ⟨"main", ⟨2, [
        .function ⟨"inner", ⟨3, [.ret {} (call .int "same" (name .int "x"))], {}⟩, {}⟩,
        .expr (call .string "same" (.literal ⟨.string, {}⟩ (.text "a")))], {}⟩, {}⟩] }

/-- The inner function closes inside the outer one, and the instantiations follow. -/
theorem compile_trace_faithful_brackets :
    ∃ c trace, bracketsSource.compileWithin roundLimit { trace := true } = some ⟨.ok c, trace⟩ ∧
      trace.filterMap Event.closed? = [("_inner", "(I)I"), ("main", "([Ljava/lang/String;)V"),
        ("_same", "(I)I"), ("_same", "(Ljava/lang/String;)Ljava/lang/String;")] ∧
      trace.foldlM Event.follow [] = some [] ∧
      ∃ scaffolding methods, c.fileUnit.methods = scaffolding ++ methods ∧
        (scaffolding.map fun m => (m.name, m.descriptor)) = Lower.scaffoldingKeys true ∧
        (methods.map fun m => (m.name, m.descriptor)) = trace.filterMap Event.closed? := by
  have hclosed : (bracketsSource.compileWithin roundLimit { trace := true }).map (fun o =>
      (o.result.isOk, o.trace.filterMap Event.closed?)) = some (true, [("_inner", "(I)I"),
        ("main", "([Ljava/lang/String;)V"), ("_same", "(I)I"),
        ("_same", "(Ljava/lang/String;)Ljava/lang/String;")]) := by
    decide +kernel
  obtain ⟨⟨result, trace⟩, hcompile, hfound⟩ := Option.map_eq_some_iff.mp hclosed
  obtain ⟨hok, htrace⟩ := Prod.mk.inj hfound
  cases result with
  | error e => cases hok
  | ok c =>
    obtain ⟨hfollow, hmethods⟩ := (compile_trace_faithful bracketsSource {} roundLimit).2.2 c
      trace hcompile
    exact ⟨c, trace, hcompile, htrace, hfollow, hmethods⟩

end SourceFile

end ClassGen
