import ClassGen.Proofs.Assignment.Stmt
import ClassGen.Proofs.ControlFlow.Closed

/-! In the methods of a file whose blocks are nested as their scopes are, each slot behind the
arguments is stored to on every path before it is read. -/

namespace ClassGen

variable {file : FileContext} {D : List Declaration} {runs : List BodyRun} {m : Method}
  {plan : MethodPlan} {frame : Frame} {c : Code} {ρ : Label → Set UInt16} {X Y : Set UInt16}

/-! ### Bodies -/

/-- What is added behind a body reads nothing. -/
theorem Code.Assigns.closed (h : c.Assigns ρ X Y) : (plan.closed frame c).Assigns ρ X Y := by
  unfold MethodPlan.closed
  split_ifs
  · exact h.append (.simple rfl rfl)
  · exact h

theorem Code.Assigns.finish (h : c.Assigns ρ X Y) : (frame.finish c).code.Assigns ρ X Y := by
  show Code.Assigns ρ (if _ then _ else _) X Y
  split_ifs
  · exact h.append (.simple rfl rfl)
  · exact h

/-- Slots of the receiver and the arguments, up to where the first variable is. -/
def Method.given (access : Access) (d : MethodDescriptor) : Set UInt16 :=
  {n | n.toNat < Cell.span (d.cells access)}

/-- A slot that is too large wraps around to a smaller one. -/
theorem Method.mem_given {access : Access} {d : MethodDescriptor} {slot : Nat} {k : Cell}
    (h : Cell.at? (d.cells access) slot = some k) : slot.toUInt16 ∈ Method.given access d := by
  have hle := Cell.at?_le h
  have hpos := k.width_pos
  have hwrap : slot.toUInt16.toNat ≤ slot := by
    rw [UInt16.toNat_ofNat']
    exact Nat.mod_le _ _
  show slot.toUInt16.toNat < _
  omega

/-- The body of a function starts in its own scope, with its arguments. -/
theorem Declaration.Nested.fits {d : Declaration} {md : MethodDescriptor} {s : LowerState}
    {access : Access} (h : d.Nested file.scopes) (hnodup : d.decl.body.scopes.Nodup)
    (hargs : ∀ a ∈ frame.args, Cell.at? (md.cells access) a.slot = some a.type.cell) :
    Fits (plan.context file frame d.decl.body.scope) (Method.given access md)
      (scopesOf d.decl.body.body)
      (plan.opened frame s) := by
  obtain ⟨hnested, n, hdepth⟩ := h
  rw [Block.scopes_eq] at hnodup
  exact ⟨⟨fun a ha => Method.mem_given (hargs a ha), nofun⟩,
    ⟨n + 1, .child (Block.isNested_iff.mp hnested).1 hdepth⟩, hnodup.of_cons, nofun⟩

theorem BodyRun.Origin.body_eq {r : BodyRun} {d : Declaration} (h : r.Origin file d) :
    r.body = d.decl.body := by
  cases h with
  | declared h =>
    obtain ⟨sig, -, -, -, hbody⟩ := h
    exact hbody
  | instantiated hg hname hplan hbody => exact hbody

theorem MethodOrigin.assigns (h : MethodOrigin file D runs m)
    (hnested : ∀ d ∈ D, d.Nested file.scopes) (hnodup : ∀ d ∈ D, d.decl.body.scopes.Nodup) :
    ∃ d ρ Y, MethodDescriptor.parse m.descriptor = .ok d ∧
      m.code.Assigns ρ (Method.given m.access d) Y := by
  cases h with
  | function hr hd ho hs =>
    rename_i r d
    obtain ⟨frame, s, code, u, hframe, hcode, hmethod⟩ := hs.lowers
    obtain ⟨md, hparse, haccess, hdescriptor, -, hargs, -⟩ := Frame.start_cells hframe
    rw [ho.body_eq] at hcode
    obtain ⟨Y, hextends⟩ := stmtsExtend d.decl.body.body hcode
      (Block.isNested_iff.mp (hnested d hd).1).2
      ((hnested d hd).fits (hnodup d hd) hargs)
    obtain ⟨ρ, hassigns⟩ := hextends.code.exists_facts
    rw [← hmethod]
    refine ⟨md, ρ, Y, (congrArg _ hdescriptor).trans hparse, ?_⟩
    rw [show (r.plan.method frame u.body.nextSlot code).access = .publicStatic from haccess]
    exact hassigns.closed.finish
  | generated h hframe =>
    rename_i access name descriptor code frame
    obtain ⟨md, hparse, haccess, hdescriptor, -, hargs, hthis⟩ := Frame.start_cells hframe
    refine ⟨md, fun _ => ∅, Method.given access md, (congrArg _ hdescriptor).trans hparse, ?_⟩
    rw [show (frame.finish (code frame)).access = access from haccess]
    refine Code.Assigns.finish (.unmarked (h.confined (fun hstatic => ?_) fun a ha => ?_)
      h.marks nofun)
    · exact Method.mem_given (hthis hstatic)
    · exact Method.mem_given (hargs a ha)

/-! ### Compiled files -/

/-- Names of the runtime are bound in the root; this moves no scope. -/
theorem FileContext.parent?_ofSource (f : SourceFile) (options : Options) :
    (FileContext.ofSource f options).scopes.parent? = f.scopes.parent? := by
  funext id
  rw [FileContext.ofSource, Prelude.bindInto, ScopeTree.parent?_bindAll]

theorem SourceFile.declarations_nested {f : SourceFile} {options : Options}
    (hroot : f.scopes.parent? ScopeTree.root = none)
    (hnested : stmtsNested f.scopes.parent? ScopeTree.root f.body = true) :
    ∀ d ∈ f.declarations, d.Nested (FileContext.ofSource f options).scopes := by
  rw [← FileContext.parent?_ofSource f options] at hroot hnested
  intro d hd
  exact stmts_declarations_nested (.root hroot) hnested d hd

/-- In a compiled file in which the scope of each block is a child of the one around it, the blocks
of a function have scopes of their own and no else branch declares a variable: whatever way control
takes through a method, when it reads a slot behind those of the receiver and the arguments it has
stored to that slot before. -/
theorem compile_assigns_before_use {f : SourceFile} {rounds : Nat} {options : Options}
    {c : CompiledFile} {trace : List Event}
    (h : f.compileWithin rounds options = some ⟨.ok c, trace⟩)
    (hroot : f.scopes.parent? ScopeTree.root = none)
    (hnested : stmtsNested f.scopes.parent? ScopeTree.root f.body = true)
    (hdistinct : ∀ d ∈ f.declarations, d.decl.body.scopes.Nodup) :
    ∀ u ∈ c.units, ∀ m ∈ u.methods, ∃ d, MethodDescriptor.parse m.descriptor = .ok d ∧
      ∀ visited n i slot, m.code.Path visited n → m.code[n]? = some i → i.loaded? = some slot →
        Cell.span (d.cells m.access) ≤ slot.toNat → m.code.Stored visited slot := by
  intro u hu m hm
  have horigin := SourceFile.methodOrigin (SourceFile.compiled?_eq_some.mpr ⟨trace, h⟩) u hu m hm
  obtain ⟨d, ρ, Y, hparse, hassigns⟩ :=
    horigin.assigns (SourceFile.declarations_nested hroot hnested) hdistinct
  refine ⟨d, hparse, fun visited n i slot hpath hi hload hslot => ?_⟩
  exact (hassigns.stored hpath hi hload).resolve_left (Nat.not_lt.mpr hslot)

/-- In `main` of the sample the slots from 1 on are read: those of the iterator and the variable of
its loop, of the subject of the match in it, and of what the arms bind. -/
theorem compile_assigns_before_use_sample :
    ∃ c trace, sampleSource.compile {} = some ⟨.ok c, trace⟩ ∧
      sampleSource.scopes.parent? ScopeTree.root = none ∧
      stmtsNested sampleSource.scopes.parent? ScopeTree.root sampleSource.body = true ∧
      (∀ d ∈ sampleSource.declarations, d.decl.body.scopes.Nodup) ∧
      c.fileUnit.methods.map (fun m => (m.name, m.code.filterMap Instr.loaded?)) =
        [("<init>", [0]), ("<clinit>", []), ("_halves", [0, 1, 0, 1]),
          ("main", [1, 1, 2, 3, 3, 4, 3, 3, 6, 6]), ("_id", [0])] ∧
      ∀ m ∈ c.fileUnit.methods, ∃ d, MethodDescriptor.parse m.descriptor = .ok d ∧
        ∀ visited n i slot, m.code.Path visited n → m.code[n]? = some i → i.loaded? = some slot →
          Cell.span (d.cells m.access) ≤ slot.toNat → m.code.Stored visited slot := by
  have hloads : (sampleSource.compiled? roundLimit {}).any (fun c => decide (
      c.fileUnit.methods.map (fun m => (m.name, m.code.filterMap Instr.loaded?)) =
        [("<init>", [0]), ("<clinit>", []), ("_halves", [0, 1, 0, 1]),
          ("main", [1, 1, 2, 3, 3, 4, 3, 3, 6, 6]), ("_id", [0])])) = true := by decide +kernel
  have hroot : sampleSource.scopes.parent? ScopeTree.root = none := by decide +kernel
  have hnested : stmtsNested sampleSource.scopes.parent? ScopeTree.root sampleSource.body =
      true := by decide +kernel
  have hdistinct : ∀ d ∈ sampleSource.declarations, d.decl.body.scopes.Nodup := by decide +kernel
  obtain ⟨c, hc, hslots⟩ := (Option.any_eq_true _ _).mp hloads
  obtain ⟨trace, hcompile⟩ := SourceFile.compiled?_eq_some.mp hc
  exact ⟨c, trace, hcompile, hroot, hnested, hdistinct, of_decide_eq_true hslots,
    compile_assigns_before_use hcompile hroot hnested hdistinct c.fileUnit List.mem_cons_self⟩

end ClassGen
