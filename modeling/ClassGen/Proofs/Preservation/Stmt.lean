import ClassGen.Proofs.Preservation.Variables

/-! Lowered statements do what the reference interpreter does, as long as it comes to an end. -/

namespace ClassGen.Preservation

open Machine Reference Run

/-- The machine ends as the interpreter did. After a normal end it is at `stop` with the stack `st`,
its locals are related to the store by `rel`, and control was expected to get there if `falls`. -/
def Simulates (A : Arith) (P : Code) (m : State) (stop : Nat) (st : List Value) (falls : Bool)
    (rel : Store → (Nat → Option Value) → Prop) : Option Completion → Prop
  | none => True
  | some (.normal σ) => falls = true ∧
    ∃ m', Runs A P m m' ∧ m'.pc = stop ∧ m'.stack = st ∧ m'.heap = m.heap ∧ rel σ m'.locals
  | some (.returned v) => Ends A P m (.returned (v.map Scalar.cell))
  | some .divisionByZero => Ends A P m .divisionByZero

section Compose

variable {A : Arith} {P : Code} {m m₁ : State} {stop stop₁ : Nat} {st st₁ : List Value}
  {falls falls₁ : Bool} {rel rel₁ : Store → (Nat → Option Value) → Prop} {x : Option Completion}

theorem Simulates.after (h : Runs A P m m₁) (hheap : m₁.heap = m.heap)
    (k : Simulates A P m₁ stop st falls rel x) : Simulates A P m stop st falls rel x := by
  match x, k with
  | none, _ => trivial
  | some (.normal σ), ⟨hf, m', hr, hpc, hst, hh, hrel⟩ =>
    exact ⟨hf, m', h.trans hr, hpc, hst, hh.trans hheap, hrel⟩
  | some (.returned v), k => exact h.ends k
  | some .divisionByZero, k => exact h.ends k

theorem Simulates.andThen {next : Store → Option Completion}
    (h : Simulates A P m stop₁ st₁ falls₁ rel₁ x)
    (k : ∀ m₁ σ, falls₁ = true → m₁.pc = stop₁ → m₁.stack = st₁ → rel₁ σ m₁.locals →
      Simulates A P m₁ stop st falls rel (next σ)) :
    Simulates A P m stop st falls rel (andThen x next) := by
  match x, h with
  | none, _ => trivial
  | some (.normal σ), ⟨hf, m', hr, hpc, hst, hh, hrel⟩ => exact (k m' σ hf hpc hst hrel).after hr hh
  | some (.returned v), h => exact h
  | some .divisionByZero, h => exact h

/-- The end of a fragment is elsewhere, or is looked at in another way. -/
theorem Simulates.relax (h : Simulates A P m stop₁ st₁ falls₁ rel₁ x)
    (k : ∀ m₁ σ, falls₁ = true → m₁.pc = stop₁ → m₁.stack = st₁ → rel₁ σ m₁.locals →
      Simulates A P m₁ stop st falls rel (some (.normal σ))) :
        Simulates A P m stop st falls rel x := by
  match x, h with
  | none, _ => trivial
  | some (.normal σ), ⟨hf, m', hr, hpc, hst, hh, hrel⟩ => exact (k m' σ hf hpc hst hrel).after hr hh
  | some (.returned v), h => exact h
  | some .divisionByZero, h => exact h

theorem simulates_normal {σ : Store} (hf : falls = true) (hpc : m.pc = stop) (hst : m.stack = st)
    (hrel : rel σ m.locals) : Simulates A P m stop st falls rel (some (.normal σ)) :=
  ⟨hf, m, runs_refl m, hpc, hst, rfl, hrel⟩

end Compose

/-! ### What lowering a part leaves behind -/

/-- From the state `s` to the state `t`, `slots` more slots were taken, for variables of the current
scope and of scopes inside it. -/
structure Grown (cx : BodyContext) (path : List ScopeId) (declared declared' : List Key)
    (place place' : Key → Nat) (s t : LowerState) (slots : Nat) : Prop where
  placed : Placed cx path declared' place' t
  elsewhere : ∀ key, key.1 ≠ cx.scope → place' key = place key
  same : declared' = declared → place' = place
  nextSlot : t.body.nextSlot = s.body.nextSlot + slots
  methods : t.file.methods = s.file.methods

/-- Lowering succeeds and its code simulates the interpreter, in every program that has the code,
and each label once. -/
def Simulated (cx : BodyContext) (path : List ScopeId) (declared declared' : List Key)
    (place : Key → Nat) (s : LowerState) (slots : Nat) (lower : Lower Code)
    (exec : Arith → Nat → Store → Option Completion) : Prop :=
  ∃ c t place', lower s = .ok c t ∧ Grown cx path declared declared' place place' s t slots ∧
    ∀ (A : Arith) (P : Code) (m : State) (σ : Store) (fuel : Nat), P.marks.Nodup → P.At m.pc c →
      Reflects cx.file.scopes path declared place σ m.locals →
      Simulates A P m (m.pc + c.length) m.stack (Code.fallsThrough c)
        (Reflects cx.file.scopes path declared' place') (exec A fuel σ)

section Parts

variable {cx : BodyContext} {path : List ScopeId} {declared : List Key} {place : Key → Nat}
  {s : LowerState}

/-- Labels taken for a part change nothing about the variables. -/
theorem Placed.skip (hp : Placed cx path declared place s) (n : Nat) :
    Placed cx path declared place (s.skip n) := hp.congr rfl rfl

theorem widen_kind_of_converts {A : Arith} {v : Scalar} {k : Primitive} (h : Converts v.kind k) :
    (v.widen A k).kind = k := by
  rcases h with rfl | h
  · rw [widen_self]
  · cases v <;> cases k <;> first | rfl | cases h

/-- Code for the value of an expression as one of type `k`, and what comes after it. -/
theorem lowerExpr_withValue {e : Expr} {j k : Primitive} (hb : cx.bindings = [])
    (hp : Placed cx path declared place s) (hfit : s.body.nextSlot ≤ 65536)
    (he : HasType [] (visible cx.file.scopes declared · path) e j) (hk : k.isScalar) :
    ∃ c n, lowerExpr cx e s = .ok ⟨.primitive j, c⟩ (s.skip n) ∧
      ∀ {A : Arith} {P : Code} {m : State} {σ : Store} {stop : Nat} {st : List Value} {falls : Bool}
        {rel : Store → (Nat → Option Value) → Prop} {next : Scalar → Option Completion},
        P.marks.Nodup →
        P.At m.pc (c ++ coerce (.primitive j) (.primitive k)) →
        Reflects cx.file.scopes path declared place σ m.locals →
        (∀ v r, v.kind = j →
          Simulates A P (m.moved (m.pc + (c ++ coerce (.primitive j) (.primitive k)).length)
            ((v.widen A k).cell :: m.stack) r) stop st falls rel (next v)) →
        Simulates A P m stop st falls rel (withValue A σ path e next) := by
  rw [← hb] at he
  obtain ⟨c, n, hc, realizes⟩ := preserved_typed he fun name k h => hp.bound h
  refine ⟨c, n, hc, fun {A P m σ stop st falls rel next} hP hat hr hnext => ?_⟩
  have run := realizes A P m (σ.find path) hP (hr.holds hp hfit) m.stack []
  unfold withValue
  match eval A (σ.find path) e [], run with
  | .ok v names, ⟨hv, turns⟩ =>
    subst hv
    exact (hnext v _ rfl).after (turns.append (turns_coerce v hk) m.pc hat) rfl
  | .error .divisionByZero names, traps =>
    obtain ⟨t, ht, -, hs⟩ := traps m.pc hat.left
    exact ⟨t, ht, hs⟩

theorem fallsThrough_append (a b : Code) :
    Code.fallsThrough (a ++ b) = if b = [] then Code.fallsThrough a else Code.fallsThrough b := by
  unfold Code.fallsThrough
  cases b with
  | nil => simp
  | cons i b => simp [List.getLast?_append, List.getLast?_cons]

theorem fallsThrough_concat {a : Code} {i : Instr} (h : i.isTerminal = false) :
    Code.fallsThrough (a ++ [i]) = true := by
  simp [Code.fallsThrough, h]

/-- Lowering that took only labels, and declared nothing. -/
theorem Grown.labels (hp : Placed cx path declared place s) (n : Nat) :
    Grown cx path declared declared place place s (s.skip n) 0 where
  placed := hp.skip n
  elsewhere _ _ := rfl
  same _ := rfl
  nextSlot := rfl
  methods := rfl

theorem turns_popValue {A : Arith} {P : Code} {m : State} {st : List Value} {r : List Nat}
    (v : Scalar) :
    Turns A P m (Code.popValue (Ty.primitive v.kind).representation) (v.cell :: st) st r r := by
  cases v <;> exact turns_op rfl

theorem fallsThrough_popValue {a : Code} {k : Primitive} (hk : k.isScalar) :
    Code.fallsThrough (a ++ Code.popValue (Ty.primitive k).representation) = true := by
  cases k <;> first | exact fallsThrough_concat rfl | cases hk

theorem Placed.isScalar (hp : Placed cx path declared place s) {name : String} {k : Primitive}
    (h : visible cx.file.scopes declared name path = some k) : k.isScalar := by
  obtain ⟨_, id, _, -, -, hmem, ho⟩ := visible_split h
  obtain ⟨j, _, ho', hj, -⟩ := hp.kept _ hmem
  rw [ho] at ho'
  cases ho'
  exact hj

theorem hasType_isScalar {map : Bindings} {Γ : String → Option Primitive} {e : Expr} {k : Primitive}
    (hΓ : ∀ name k, Γ name = some k → k.isScalar) (he : HasType map Γ e k) : k.isScalar := by
  induction he with
  | literal => exact kind_isScalar _
  | ident hk => exact hΓ _ _ hk
  | group _ _ ih => exact ih
  | arithmetic _ _ _ ha _ _ => exact isScalar_of_isNumeric (wider_isNumeric ha)
  | xor hk => rcases hk with rfl | rfl <;> rfl
  | logic => rfl
  | compare => rfl
  | negate hk => exact isScalar_of_isNumeric hk
  | not => rfl

theorem execStmt_expr {A : Arith} {scopes : ScopeTree} {ret : Ty} {fuel : Nat} {σ : Store}
    {map : Bindings} {Γ : String → Option Primitive} {e : Expr} {k : Primitive}
    (he : HasType map Γ e k) :
    execStmt A scopes ret fuel (.expr e) path σ = withValue A σ path e fun _ =>
      some (.normal σ) := by
  cases he <;> rfl

theorem simulated_expr {e : Expr} {k : Primitive} (hb : cx.bindings = [])
    (hp : Placed cx path declared place s) (hfit : s.body.nextSlot ≤ 65536)
    (he : HasType [] (visible cx.file.scopes declared · path) e k) :
    Simulated cx path declared declared place s 0 (lowerStmt cx (.expr e))
      fun A fuel σ => execStmt A cx.file.scopes cx.ret fuel (.expr e) path σ := by
  have hk := hasType_isScalar (fun _ _ h => hp.isScalar h) he
  obtain ⟨c, n, hc, value⟩ := lowerExpr_withValue hb hp hfit he hk
  rw [coerce_self, List.append_nil] at value
  refine ⟨c ++ Code.popValue (Ty.primitive k).representation, s.skip n, place, ?_, .labels hp n, ?_⟩
  · rw [lowerStmt, bind_of_ok hc]
    rfl
  · intro A P m σ fuel hP hat hr
    simp only [execStmt_expr he]
    refine value hP hat.left hr fun v r hv => ?_
    subst hv
    rw [widen_self]
    refine Simulates.after (turns_popValue (m := m) v _ hat.right) rfl ?_
    exact simulates_normal (fallsThrough_popValue hk) (by simp [Nat.add_assoc]) rfl hr

theorem storeKind_storeOp (v : Scalar) :
    ∃ accepts, loadKind? v.kind.storeOp = none ∧ storeKind? v.kind.storeOp = some accepts ∧
      accepts v.cell := by
  cases v <;> exact ⟨_, rfl, rfl, rfl⟩

/-- The store instruction of a variable assigns to it. -/
theorem simulates_assign {A : Arith} {P : Code} {m : State} {σ : Store} {n : Nat} {st : List Value}
    {r : List Nat} {name : String} {v : Scalar} {k : Primitive}
    (hp : Placed cx path declared place s) (hfit : s.body.nextSlot ≤ 65536)
    (hr : Reflects cx.file.scopes path declared place σ m.locals)
    (hk : visible cx.file.scopes declared name path = some k) (hv : Converts v.kind k)
    (hat : P.At n [.slot k.storeOp (slotOf cx.file.scopes path place name)]) :
    Simulates A P (m.moved n ((v.widen A k).cell :: st) r) (n + 1) st true
      (Reflects cx.file.scopes path declared place) (assign A σ path name v) := by
  obtain ⟨id, old, hmem, ho, hhome, hfind, hkind, hml, hslot⟩ := hr.meaning hk
  have hw := widen_kind_of_converts (A := A) hv
  obtain ⟨accepts, hload, hstore, ha⟩ := storeKind_storeOp (v.widen A k)
  rw [hw] at hload hstore
  simp only [Reference.assign, hhome, hfind, hkind]
  refine Simulates.after (runs_store hat.head hload hstore rfl ha) rfl ?_
  refine simulates_normal rfl rfl rfl ?_
  rw [hslot, hp.toNat_place hmem hfit]
  exact hr.assign hp hmem (by rw [hw, ho])

theorem simulated_assign {note target : Note} {name : String} {e : Expr} {j k : Primitive}
    (hb : cx.bindings = []) (hp : Placed cx path declared place s) (hfit : s.body.nextSlot ≤ 65536)
    (hk : visible cx.file.scopes declared name path = some k)
    (he : HasType [] (visible cx.file.scopes declared · path) e j) (hjk : Converts j k) :
    Simulated cx path declared declared place s 0
      (lowerStmt cx (.expr (.assign note (.ident target name) e)))
      fun A fuel σ => execStmt A cx.file.scopes cx.ret fuel
        (.expr (.assign note (.ident target name) e)) path σ := by
  have hj := hasType_isScalar (fun _ _ h => hp.isScalar h) he
  obtain ⟨st, hvis, hst, htype, -, hstore⟩ := hp.storage hk
  obtain ⟨c, n, hc, value⟩ := lowerExpr_withValue hb hp hfit he (hp.isScalar hk)
  refine ⟨(c ++ coerce (.primitive j) (.primitive k)) ++
    [Instr.slot k.storeOp (slotOf cx.file.scopes path place name)], s.skip n, place, ?_,
    .labels hp n, ?_⟩
  · have lowered : lowerExpr cx (.assign note (.ident target name) e) s =
        .ok ⟨.void, (c ++ coerce (.primitive j) st.type) ++ st.store cx.frame⟩ (s.skip n) := by
      rw [lowerExpr, bind_of_ok (BodyContext.storageOf_ok.mpr ⟨hvis, hst, rfl⟩), bind_of_ok hc,
        bind_of_ok (Lowered.into_ok.mpr ⟨not_void hj, rfl, rfl⟩)]
      rfl
    rw [lowerStmt, bind_of_ok lowered, hstore, htype, pure_ok]
    exact ⟨List.append_nil _, rfl⟩
  · intro A P m σ fuel hP hat hr
    simp only [execStmt]
    rw [fallsThrough_concat (by cases k <;> rfl), List.length_append, ← Nat.add_assoc]
    exact value hP hat.left hr fun v r hv => simulates_assign hp hfit hr hk (hv ▸ hjk) hat.right

theorem turns_load {A : Arith} {P : Code} {m : State} {σ : Store} {st : List Value} {name : String}
    {k : Primitive} {v : Scalar} (hp : Placed cx path declared place s)
    (hfit : s.body.nextSlot ≤ 65536) (hr : Reflects cx.file.scopes path declared place σ m.locals)
    (hk : visible cx.file.scopes declared name path = some k) (hv : σ.find path name = some v) :
    Turns A P m [.slot k.loadOp (slotOf cx.file.scopes path place name)] st (v.cell :: st) m.reads
      (seen m (slotOf cx.file.scopes path place) [name]) := by
  obtain ⟨w, hw, hkind, hml⟩ := hr.holds hp hfit name k hk
  obtain rfl : v = w := Option.some.inj (hv.symm.trans hw)
  subst hkind
  obtain ⟨accepts, hop, ha⟩ := loadKind_loadOp v
  exact fun n h => runs_load (s := m.moved n st m.reads) h.head hop hml ha

theorem pushOne_eq {k : Primitive} (hk : k.isNumeric) :
    ∃ value, Code.pushOne k = .push value ∧ constantValue value = (one k).cell ∧
      (one k).kind = k := by
  cases k <;> first | exact ⟨_, rfl, rfl, rfl⟩ | cases hk

theorem apply_step {A : Arith} (op : StepOp) {v : Scalar} (hv : v.kind.isNumeric) :
    ∃ w, apply A (stepOperator op) v (one v.kind) = .ok w ∧
      applyAlike A (stepOperator op) v (one v.kind) = .ok w ∧
      w.kind = v.kind := by
  cases op <;> cases v <;> first | exact ⟨_, rfl, rfl, rfl⟩ | cases hv

/-- The middle of a step: one more, or one less. -/
theorem turns_step {A : Arith} {P : Code} {m : State} {st : List Value} {slots : String → UInt16}
    {names : List String} {op : StepOp} {v w : Scalar} {value : Constant} (hv : v.kind.isNumeric)
    (hone : constantValue value = (one v.kind).cell) (hkind : (one v.kind).kind = v.kind)
    (hw : applyAlike A (stepOperator op) v (one v.kind) = .ok w) :
    Turns A P m ([Instr.push value] ++ arithmeticCode v.kind op.arithmetic) (v.cell :: st)
      (w.cell :: st)
      (seen m slots names) (seen m slots names) := by
  have hop : (stepOperator op).arithmetic? = some op.arithmetic := by cases op <;> rfl
  have compute : Realizes A P m slots v.kind (arithmeticCode v.kind op.arithmetic)
      ((one v.kind).cell :: v.cell :: st)
      st names _ := realizes_arithmetic hop hv hkind
  rw [hw] at compute
  rw [← hone] at compute
  exact (turns_push value).append compute.2

theorem simulated_step {note target : Note} {op : StepOp} {name : String} {k : Primitive}
    (hp : Placed cx path declared place s) (hfit : s.body.nextSlot ≤ 65536)
    (hk : visible cx.file.scopes declared name path = some k) (hnum : k.isNumeric) :
    Simulated cx path declared declared place s 0
      (lowerStmt cx (.expr (.step note op (.ident target name))))
      fun A fuel σ => execStmt A cx.file.scopes cx.ret fuel
        (.expr (.step note op (.ident target name))) path σ := by
  obtain ⟨st, hvis, hst, htype, hload, hstore⟩ := hp.storage hk
  obtain ⟨value, hpush, hone, hkind⟩ := pushOne_eq hnum
  refine ⟨([Instr.slot k.loadOp (slotOf cx.file.scopes path place name)] ++ [Instr.push value] ++
    arithmeticCode k op.arithmetic) ++ [Instr.slot k.storeOp
      (slotOf cx.file.scopes path place name)], s, place, ?_,
    .labels hp 0, ?_⟩
  · have lowered : lowerExpr cx (.step note op (.ident target name)) s =
        .ok ⟨.void, st.load cx.frame ++ [Code.pushOne k] ++ arithmeticCode k op.arithmetic ++
          st.store cx.frame⟩ s := by
      rw [lowerExpr, bind_of_ok (BodyContext.storageOf_ok.mpr ⟨hvis, hst, rfl⟩)]
      simp only [htype, numeric?_primitive hnum]
      rfl
    rw [lowerStmt, bind_of_ok lowered, hload, hstore, hpush, pure_ok]
    exact ⟨List.append_nil _, rfl⟩
  · intro A P m σ fuel hP hat hr
    simp only [execStmt]
    rw [fallsThrough_concat (by cases k <;> rfl), List.length_append, ← Nat.add_assoc]
    obtain ⟨id, old, -, -, -, hfind, rfl, -, -⟩ := hr.meaning hk
    obtain ⟨w, happly, halike, hw⟩ := apply_step (A := A) op hnum
    simp only [hfind, happly]
    have run : Turns A P m _ m.stack (w.cell :: m.stack) _ _ :=
      (turns_load hp hfit hr hk hfind).append (turns_step hnum hone hkind halike)
    rw [← List.append_assoc] at run
    refine Simulates.after (run m.pc hat.left) rfl ?_
    have hself : w.widen A old.kind = w := by rw [← hw, widen_self]
    nth_rewrite 1 [← hself]
    exact simulates_assign hp hfit hr hk (.inl hw) hat.right

theorem resolve_primitive (map : Bindings) (k : Primitive) :
    Specialization.resolve map (.primitive k) = .ok (.primitive k) := by
  simp [Specialization.resolve, Ty.substitute, Ty.placeholder?]

/-- The innermost scope gives a name its type. -/
theorem Placed.lookup_own (hp : Placed cx path declared place s) {name : String} {t : Ty}
    (ho : cx.file.scopes.own? cx.scope name = some t) :
    cx.file.scopes.lookup cx.scope name = some t := by
  obtain ⟨rest, hrest⟩ := hp.nested.prefix_chain hp.here
  have hhere := hp.here
  cases path with
  | nil => cases hhere
  | cons id path =>
    obtain rfl : id = cx.scope := by simpa using hhere
    rw [ScopeTree.lookup, ← hrest]
    simp [ho]

theorem simulated_var {span : Span} {name : String} {e : Expr} {j k : Primitive}
    (hb : cx.bindings = []) (hp : Placed cx path declared place s)
    (hfit : s.body.nextSlot + stmtSlots cx.file.scopes cx.scope (.var span name e) ≤ 65536)
    (ho : cx.file.scopes.own? cx.scope name = some (.primitive k)) (hk : k.isScalar)
    (he : HasType [] (visible cx.file.scopes declared · path) e j) (hjk : Converts j k) :
    Simulated cx path declared ((cx.scope, name) :: declared) place s
      (stmtSlots cx.file.scopes cx.scope (.var span name e)) (lowerStmt cx (.var span name e))
      fun A fuel σ => execStmt A cx.file.scopes cx.ret fuel (.var span name e) path σ := by
  have hj := hasType_isScalar (fun _ _ h => hp.isScalar h) he
  have hslots : stmtSlots cx.file.scopes cx.scope (.var span name e) = k.slots := by
    simp [stmtSlots, ho, representation_scalar hk, Representation.slots]
  have hpos := slots_pos hk
  rw [hslots] at hfit ⊢
  obtain ⟨c, n, hc, value⟩ := lowerExpr_withValue hb hp (by omega) he hk
  refine ⟨(c ++ coerce (.primitive j) (.primitive k)) ++
    [Instr.slot k.storeOp s.body.nextSlot.toUInt16],
    (s.skip n).withLocal cx.scope name (.primitive k),
    placeNext place (cx.scope, name) s.body.nextSlot, ?_, ?_, ?_⟩
  · have hvoid : (Ty.primitive k).isVoid = false := by cases k <;> first | rfl | cases hk
    rw [lowerStmt]
    unfold lowerVar
    simp only [hp.lookup_own ho]
    rw [bind_of_ok (BodyContext.resolveType_ok.mpr ⟨resolve_primitive _ _, rfl⟩), hvoid,
      if_neg Bool.false_ne_true, lowerAs, bind_assoc, bind_of_ok hc,
      bind_of_ok (Lowered.into_ok.mpr ⟨not_void hj, rfl, rfl⟩),
      bind_of_ok (Lower.declareLocal_ok.mpr ⟨rfl, rfl⟩), Code.storeSlot, representation_scalar hk]
    rfl
  · exact {
      placed := (hp.skip n).declare ho hk
      elsewhere := fun key hkey => placeNext_other _ fun h => hkey (by rw [h])
      same := fun h => absurd h (by simp)
      nextSlot := by
        simp only [LowerState.withLocal, representation_scalar hk, Representation.slots,
          LowerState.skip_nextSlot]
        omega
      methods := rfl }
  · intro A P m σ fuel hP hat hr
    simp only [execStmt]
    rw [fallsThrough_concat (by cases k <;> rfl), List.length_append, ← Nat.add_assoc]
    refine value hP hat.left hr fun v r hv => ?_
    have hw := widen_kind_of_converts (A := A) (v := v) (hv ▸ hjk)
    obtain ⟨accepts, hload, hstore, ha⟩ := storeKind_storeOp (v.widen A k)
    rw [hw] at hload hstore
    have hnat : s.body.nextSlot.toUInt16.toNat = s.body.nextSlot :=
      UInt16.toNat_ofNat_of_lt' (show _ < 65536 by omega)
    have hscope := hp.here
    cases path with
    | nil => cases hscope
    | cons id outer =>
      obtain rfl : id = cx.scope := by simpa using hscope
      simp only [ho]
      refine Simulates.after (runs_store hat.right.head hload hstore rfl ha) rfl ?_
      refine simulates_normal rfl rfl rfl ?_
      rw [hnat]
      exact hr.declare hp (by rw [hw, ho])

theorem isEmpty_typed {map : Bindings} {Γ : String → Option Primitive} {e : Expr} {k : Primitive}
    (he : HasType map Γ e k) : e.isEmpty = false := by
  cases he <;> rfl

theorem simulated_leave {span : Span} {note : Note} (hp : Placed cx path declared place s)
    (hret : cx.ret = .void) :
    Simulated cx path declared declared place s 0 (lowerStmt cx (.ret span (.empty note)))
      fun A fuel σ => execStmt A cx.file.scopes cx.ret fuel (.ret span (.empty note)) path σ := by
  refine ⟨[.op .vreturn], s, place, ?_, .labels hp 0, fun A P m σ fuel hP hat hr =>
    ends_op hat.head rfl⟩
  rw [lowerStmt, lowerReturn, hret]
  rfl

theorem simulated_discard {span : Span} {e : Expr} {k : Primitive} (hb : cx.bindings = [])
    (hp : Placed cx path declared place s) (hfit : s.body.nextSlot ≤ 65536) (hret : cx.ret = .void)
    (he : HasType [] (visible cx.file.scopes declared · path) e k) :
    Simulated cx path declared declared place s 0 (lowerStmt cx (.ret span e))
      fun A fuel σ => execStmt A cx.file.scopes cx.ret fuel (.ret span e) path σ := by
  have hk := hasType_isScalar (fun _ _ h => hp.isScalar h) he
  obtain ⟨c, n, hc, value⟩ := lowerExpr_withValue hb hp hfit he hk
  rw [coerce_self, List.append_nil] at value
  refine ⟨(c ++ Code.popValue (Ty.primitive k).representation) ++ [Instr.op .vreturn],
    s.skip n, place, ?_, .labels hp n, ?_⟩
  · rw [lowerStmt, lowerReturn, hret, isEmpty_typed he,
      if_pos (show Ty.void.isVoid = true from rfl), if_neg Bool.false_ne_true, bind_of_ok hc]
    rfl
  · intro A P m σ fuel hP hat hr
    simp only [execStmt, isEmpty_typed he, Bool.false_eq_true, if_false, hret]
    refine value hP hat.left.left hr fun v r hv => ?_
    subst hv
    rw [widen_self]
    refine Simulates.after (turns_popValue (m := m) v _ hat.left.right) rfl ?_
    have hreturn := hat.right.head
    rw [List.length_append, ← Nat.add_assoc] at hreturn
    exact ends_op hreturn rfl

theorem operate_return {A : Arith} {heap : List Object} {st : List Value} (v : Scalar) :
    operate A heap v.kind.returnOp (v.cell :: st) = some (.stop (.returned (some v.cell))) := by
  cases v <;> rfl

theorem simulated_ret {span : Span} {e : Expr} {j k : Primitive} (hb : cx.bindings = [])
    (hp : Placed cx path declared place s) (hfit : s.body.nextSlot ≤ 65536)
    (hret : cx.ret = .primitive k) (hk : k.isScalar)
    (he : HasType [] (visible cx.file.scopes declared · path) e j) (hjk : Converts j k) :
    Simulated cx path declared declared place s 0 (lowerStmt cx (.ret span e))
      fun A fuel σ => execStmt A cx.file.scopes cx.ret fuel (.ret span e) path σ := by
  have hj := hasType_isScalar (fun _ _ h => hp.isScalar h) he
  have hvoid : (Ty.primitive k).isVoid = false := by cases k <;> first | rfl | cases hk
  obtain ⟨c, n, hc, value⟩ := lowerExpr_withValue hb hp hfit he hk
  refine ⟨(c ++ coerce (.primitive j) (.primitive k)) ++ [Instr.op k.returnOp], s.skip n, place, ?_,
    .labels hp n, ?_⟩
  · rw [lowerStmt, lowerReturn, hret, hvoid, isEmpty_typed he, if_neg Bool.false_ne_true,
      if_neg Bool.false_ne_true, lowerAs, bind_assoc]
    beta_reduce
    rw [bind_of_ok hc, bind_of_ok (Lowered.into_ok.mpr ⟨not_void hj, rfl, rfl⟩), Code.returnValue,
      representation_scalar hk]
    rfl
  · intro A P m σ fuel hP hat hr
    simp only [execStmt, isEmpty_typed he, Bool.false_eq_true, if_false, hret]
    refine value hP hat.left hr fun v r hv => ?_
    have hw := widen_kind_of_converts (A := A) (v := v) (hv ▸ hjk)
    have ends : operate A m.heap _ (_ :: m.stack) = _ := operate_return (v.widen A k)
    rw [hw] at ends
    cases k <;> first | exact ends_op hat.right.head ends | cases hk

/-! ### Branches and loops -/

/-- The code of a test as the code of a jump after it sees it. -/
theorem tests_value (A : Arith) {P : Code} {m : State} (hP : P.marks.Nodup) {b : Bool} {l : Label}
    {st : List Value} {r : List Nat} :
    Tests A P m [.jump .ifeq l] l b ((Scalar.bool b).cell :: st) st r :=
  tests_jump hP (by cases b <;> rfl)

variable {test : Expr} {body : Block}

/-- A block is simulated from every state that keeps the variables in the same places. -/
def BlockSimulated (cx : BodyContext) (path : List ScopeId) (declared : List Key)
    (place : Key → Nat) (body : Block) : Prop :=
  ∀ s, Placed cx path declared place s → s.body.nextSlot + blockSlots cx.file.scopes body ≤ 65536 →
    Simulated cx path declared declared place s (blockSlots cx.file.scopes body)
      (lowerBlock cx body)
      fun A fuel σ => execBlock A cx.file.scopes cx.ret fuel body path σ

theorem simulated_ifThen {span : Span} (hb : cx.bindings = [])
    (hp : Placed cx path declared place s)
    (hfit : s.body.nextSlot + blockSlots cx.file.scopes body ≤ 65536)
    (ht : HasType [] (visible cx.file.scopes declared · path) test .boolean)
    (hbody : BlockSimulated cx path declared place body) :
    Simulated cx path declared declared place s (blockSlots cx.file.scopes body)
      (lowerStmt cx (.ifElse span test body none))
      fun A fuel σ => execStmt A cx.file.scopes cx.ret fuel (.ifElse span test body none)
        path σ := by
  obtain ⟨ct, n, hct, value⟩ := lowerExpr_withValue hb (hp.skip 1) (Nat.le_of_add_right_le hfit) ht
    (k := .boolean) rfl
  obtain ⟨b, u, place', hlow, grown, sim⟩ := hbody ((s.skip 1).skip n) ((hp.skip 1).skip n) hfit
  rw [coerce_self, List.append_nil] at value
  have lowered : lowerStmt cx (.ifElse span test body none) s =
      .ok (ct ++ [Instr.jump .ifeq s.body.nextLabel] ++ b ++ [Instr.mark s.body.nextLabel]) u := by
    rw [lowerStmt, bind_of_ok (Lower.newLabel_ok.mpr ⟨rfl, rfl⟩), lowerAs, bind_assoc,
      bind_of_ok hct, bind_of_ok (Lowered.into_ok.mpr ⟨not_void rfl, rfl, rfl⟩), bind_of_ok hlow,
      coerce_self, List.append_nil]
    rfl
  refine ⟨_, u, place', lowered, ⟨grown.placed, grown.elsewhere, grown.same, grown.nextSlot,
    grown.methods⟩, ?_⟩
  intro A P m σ fuel hP hat hr
  simp only [execStmt]
  rw [fallsThrough_concat rfl]
  have hjump := hat.left.left.right
  have hblock := hat.left.right
  have hmark := hat.right
  simp only [List.length_append, List.length_singleton, ← Nat.add_assoc] at hjump hblock hmark ⊢
  refine value hP hat.left.left.left hr fun v r hv => ?_
  obtain ⟨x, rfl⟩ := eq_bool hv
  have jump : Tests A P m [.jump .ifeq s.body.nextLabel] s.body.nextLabel x _ m.stack r :=
    tests_value A hP
  cases x with
  | true =>
    refine Simulates.after (jump.1 rfl _ hjump) rfl ?_
    refine (sim A P (m.moved _ m.stack r) σ fuel hP hblock hr).relax fun m₁ σ₁ _ hpc hst hrel => ?_
    refine Simulates.after (runs_mark (by rw [hpc]; exact hmark.head)) rfl ?_
    exact simulates_normal rfl (by simp [hpc]) (by simp [hst]) hrel
  | false =>
    refine Simulates.after (jump.2 rfl _ _ hjump hmark.head) rfl ?_
    refine Simulates.after (runs_mark hmark.head) rfl ?_
    exact simulates_normal rfl rfl rfl (grown.same rfl ▸ hr)

/-- The code of two branches after a test: the first one goes past the second where it can come to
its end. -/
def branchesCode (l done : Label) (b e : Code) : Code :=
  [.jump .ifeq l] ++ thenGoto b done ++ [.mark l] ++ e ++
    if Code.fallsThrough b then [.mark done] else []

theorem simulates_branches {A : Arith} {P : Code} {m : State} (hP : P.marks.Nodup) {l done : Label}
    {b e : Code} {n : Nat} (hat : P.At n (branchesCode l done b e)) {x : Bool} {r : List Nat}
    {rel : Store → (Nat → Option Value) → Prop} {yes no : Option Completion}
    (hyes : ∀ n, P.At n b → Simulates A P (m.moved n m.stack r)
      (n + b.length) m.stack (Code.fallsThrough b) rel yes)
    (hno : ∀ n, P.At n e → Simulates A P (m.moved n m.stack r)
      (n + e.length) m.stack (Code.fallsThrough e) rel no) :
    Simulates A P (m.moved n ((Scalar.bool x).cell :: m.stack) r)
      (n + (branchesCode l done b e).length) m.stack
      (Code.fallsThrough (branchesCode l done b e)) rel (choose (.bool x) yes no) := by
  have jump : Tests A P m [.jump .ifeq l] l x _ m.stack r := tests_value A hP
  unfold branchesCode at hat ⊢
  cases hf : Code.fallsThrough b with
  | true =>
    rw [thenGoto, hf, if_pos rfl, if_pos rfl] at hat ⊢
    rw [fallsThrough_concat rfl]
    have hgoto := hat.left.left.left.right.right
    have hmark := hat.left.left.right
    have helse := hat.left.right
    have hdone := hat.right
    have hthen := hat.left.left.left.right.left
    simp only [List.length_append, List.length_singleton, ← Nat.add_assoc]
      at hthen hgoto hmark helse hdone ⊢
    cases x with
    | true =>
      refine Simulates.after (jump.1 rfl _ hat.left.left.left.left) rfl ?_
      refine (hyes _ hthen).relax fun m₁ σ₁ _ hpc hst hrel => ?_
      refine Simulates.after (runs_jump hP (by rw [hpc]; exact hgoto.head) rfl hdone.head) rfl ?_
      refine Simulates.after (runs_mark hdone.head) rfl ?_
      exact simulates_normal rfl rfl hst hrel
    | false =>
      refine Simulates.after (jump.2 rfl _ _ hat.left.left.left.left hmark.head) rfl ?_
      refine Simulates.after (runs_mark hmark.head) rfl ?_
      refine (hno _ helse).relax fun m₁ σ₁ _ hpc hst hrel => ?_
      refine Simulates.after (runs_mark (by rw [hpc]; exact hdone.head)) rfl ?_
      exact simulates_normal rfl (by simp [hpc]) (by simp [hst]) hrel
  | false =>
    rw [thenGoto, hf, if_neg Bool.false_ne_true, if_neg Bool.false_ne_true,
      List.append_nil] at hat ⊢
    have hmark := hat.left.right
    have helse := hat.right
    have hthen := hat.left.left.right
    simp only [List.length_append, List.length_singleton, ← Nat.add_assoc] at hthen hmark helse ⊢
    cases x with
    | true =>
      refine Simulates.after (jump.1 rfl _ hat.left.left.left) rfl ?_
      exact (hyes _ hthen).relax fun m₁ σ₁ hb => absurd (hf.symm.trans hb) Bool.false_ne_true
    | false =>
      refine Simulates.after (jump.2 rfl _ _ hat.left.left.left hmark.head) rfl ?_
      refine Simulates.after (runs_mark hmark.head) rfl ?_
      refine (hno _ helse).relax fun m₁ σ₁ he hpc hst hrel => ?_
      refine simulates_normal ?_ hpc hst hrel
      rw [fallsThrough_append, he]
      split
      · exact fallsThrough_concat rfl
      · rfl

theorem simulated_ifElse {span : Span} {branch : Stmt} (hb : cx.bindings = [])
    (hp : Placed cx path declared place s)
    (hfit : s.body.nextSlot + (blockSlots cx.file.scopes body + stmtSlots cx.file.scopes cx.scope
      branch) ≤ 65536)
    (ht : HasType [] (visible cx.file.scopes declared · path) test .boolean)
    (hbody : BlockSimulated cx path declared place body)
    (hbranch : ∀ s, Placed cx path declared place s →
      s.body.nextSlot + stmtSlots cx.file.scopes cx.scope branch ≤ 65536 →
      Simulated cx path declared declared place s (stmtSlots cx.file.scopes cx.scope branch)
        (lowerStmt cx branch)
        fun A fuel σ => execStmt A cx.file.scopes cx.ret fuel branch path σ) :
    Simulated cx path declared declared place s
      (blockSlots cx.file.scopes body + stmtSlots cx.file.scopes cx.scope branch)
      (lowerStmt cx (.ifElse span test body (some branch)))
      fun A fuel σ => execStmt A cx.file.scopes cx.ret fuel (.ifElse span test body (some branch))
        path σ := by
  obtain ⟨ct, n, hct, value⟩ := lowerExpr_withValue hb (hp.skip 1) (Nat.le_of_add_right_le hfit) ht
    (k := .boolean) rfl
  obtain ⟨b, u, place₁, hlow, grown, sim⟩ := hbody ((s.skip 1).skip n) ((hp.skip 1).skip n)
    (show s.body.nextSlot + _ ≤ _ by omega)
  obtain rfl := grown.same rfl
  have hnext : u.body.nextSlot = s.body.nextSlot + blockSlots cx.file.scopes body := grown.nextSlot
  obtain ⟨e, v, place₂, hlow', grown', sim'⟩ := hbranch (u.skip 1) (grown.placed.skip 1)
    (show u.body.nextSlot + _ ≤ _ by omega)
  obtain rfl := grown'.same rfl
  rw [coerce_self, List.append_nil] at value
  have lowered : lowerStmt cx (.ifElse span test body (some branch)) s =
      .ok (ct ++ branchesCode s.body.nextLabel u.body.nextLabel b e) v := by
    rw [lowerStmt, bind_of_ok (Lower.newLabel_ok.mpr ⟨rfl, rfl⟩), lowerAs, bind_assoc,
      bind_of_ok hct, bind_of_ok (Lowered.into_ok.mpr ⟨not_void rfl, rfl, rfl⟩), bind_of_ok hlow,
      bind_of_ok (Lower.newLabel_ok.mpr ⟨rfl, rfl⟩), bind_of_ok hlow', coerce_self, List.append_nil,
      branchesCode]
    simp only [List.append_assoc]
    rfl
  have grown_all : Grown cx path declared declared place₂ place₂ s v
      (blockSlots cx.file.scopes body + stmtSlots cx.file.scopes cx.scope branch) := by
    refine ⟨grown'.placed, fun _ _ => rfl, fun _ => rfl, ?_, grown'.methods.trans grown.methods⟩
    have : v.body.nextSlot = u.body.nextSlot + stmtSlots cx.file.scopes cx.scope branch :=
      grown'.nextSlot
    omega
  refine ⟨_, v, place₂, lowered, grown_all, ?_⟩
  intro A P m σ fuel hP hat hr
  simp only [execStmt]
  have hne : branchesCode s.body.nextLabel u.body.nextLabel b e ≠ [] := by simp [branchesCode]
  rw [fallsThrough_append, if_neg hne, List.length_append, ← Nat.add_assoc]
  refine value hP hat.left hr fun w r hw => ?_
  obtain ⟨x, rfl⟩ := eq_bool hw
  refine simulates_branches hP hat.right (fun n hn => ?_) fun n hn => ?_
  · exact sim A P (m.moved n m.stack r) σ fuel hP hn hr
  · exact sim' A P (m.moved n m.stack r) σ fuel hP hn hr

theorem simulated_whileLoop {span : Span} (hb : cx.bindings = [])
    (hp : Placed cx path declared place s)
    (hfit : s.body.nextSlot + blockSlots cx.file.scopes body ≤ 65536)
    (ht : HasType [] (visible cx.file.scopes declared · path) test .boolean)
    (hbody : BlockSimulated cx path declared place body) :
    Simulated cx path declared declared place s (blockSlots cx.file.scopes body)
      (lowerStmt cx (.whileLoop span test body))
      fun A fuel σ => execStmt A cx.file.scopes cx.ret fuel (.whileLoop span test body) path σ := by
  obtain ⟨ct, n, hct, value⟩ := lowerExpr_withValue hb (hp.skip 2) (Nat.le_of_add_right_le hfit) ht
    (k := .boolean) rfl
  obtain ⟨b, u, place', hlow, grown, sim⟩ := hbody ((s.skip 2).skip n) ((hp.skip 2).skip n) hfit
  obtain rfl := grown.same rfl
  rw [coerce_self, List.append_nil] at value
  have lowered : lowerStmt cx (.whileLoop span test body) s =
      .ok ([Instr.mark s.body.nextLabel] ++ ct ++ [Instr.jump .ifeq (s.body.nextLabel + 1)] ++ b ++
        [Code.goto s.body.nextLabel] ++ [Instr.mark (s.body.nextLabel + 1)]) u := by
    rw [lowerStmt, bind_of_ok (Lower.newLabel_ok.mpr ⟨rfl, rfl⟩),
      bind_of_ok (Lower.newLabel_ok.mpr ⟨rfl, rfl⟩), LowerState.skip_skip, lowerAs, bind_assoc,
      bind_of_ok hct, bind_of_ok (Lowered.into_ok.mpr ⟨not_void rfl, rfl, rfl⟩), bind_of_ok hlow,
      coerce_self, List.append_nil, List.append_assoc _ [Code.goto _]]
    rfl
  refine ⟨_, u, place', lowered, ⟨grown.placed, grown.elsewhere, grown.same, grown.nextSlot,
    grown.methods⟩, ?_⟩
  intro A P m σ fuel hP hat hr
  simp only [execStmt]
  rw [fallsThrough_concat rfl]
  have hstart := hat.left.left.left.left.left
  have htest := hat.left.left.left.left.right
  have hjump := hat.left.left.left.right
  have hblock := hat.left.left.right
  have hgoto := hat.left.right
  have hdone := hat.right
  simp only [List.length_append, List.length_singleton, ← Nat.add_assoc]
    at hstart htest hjump hblock hgoto hdone ⊢
  -- the machine comes back to the first label with the stack it had, and one unit of fuel less
  suffices turns : ∀ rounds m₁ σ₁, m₁.pc = m.pc → m₁.stack = m.stack →
      Reflects cx.file.scopes path declared place' σ₁ m₁.locals →
      Simulates A P m₁ (m.pc + 1 + ct.length + 1 + b.length + 1 + 1) m.stack true
        (Reflects cx.file.scopes path declared place')
        (loop (fun next σ => withValue A σ path test fun v =>
          choose v (andThen (execBlock A cx.file.scopes cx.ret fuel body path σ) next)
            (some (.normal σ))) rounds σ₁)
    from turns fuel m σ rfl rfl hr
  intro rounds
  induction rounds with
  | zero => exact fun _ _ _ _ _ => trivial
  | succ rounds ih =>
    intro m₁ σ₁ hpc hst hr₁
    refine Simulates.after (runs_mark (by rw [hpc]; exact hstart.head)) rfl ?_
    have hpc' : (m₁.moved (m₁.pc + 1) m₁.stack m₁.reads).pc = m.pc + 1 := by simp [hpc]
    refine value hP (by rw [hpc']; exact htest) hr₁ fun v r hv => ?_
    obtain ⟨x, rfl⟩ := eq_bool hv
    have jump : Tests A P m₁ [.jump .ifeq (s.body.nextLabel + 1)]
        (s.body.nextLabel + 1) x _ m₁.stack r :=
      tests_value A hP
    simp only [State.moved_moved, State.moved_pc, State.moved_stack, hpc]
    cases x with
    | true =>
      refine Simulates.after (jump.1 rfl _ hjump) rfl ?_
      refine (sim A P (m₁.moved _ m₁.stack r) σ₁ fuel hP hblock hr₁).andThen fun m₂ σ₂ _ hpc₂
        hst₂ hr₂ => ?_
      refine Simulates.after (runs_jump hP (by rw [hpc₂]; exact hgoto.head) rfl hstart.head) rfl ?_
      exact ih _ _ rfl (hst₂.trans hst) hr₂
    | false =>
      refine Simulates.after (jump.2 rfl _ _ hjump hdone.head) rfl ?_
      refine Simulates.after (runs_mark hdone.head) rfl ?_
      exact simulates_normal rfl rfl hst hr₁

/-! ### Blocks and sequences -/

variable {declared' : List Key} {scopes : ScopeTree} {ret : Ty}

theorem typedStmt_suffix {stmt : Stmt} (h : TypedStmt scopes ret path declared stmt declared') :
    declared <:+ declared' ∧ ∀ key ∈ declared', key ∈ declared ∨ path.head? = some key.1 := by
  cases h with
  | var hown hk he hjk =>
    refine ⟨List.suffix_cons _ _, fun key hmem => ?_⟩
    rcases List.mem_cons.mp hmem with rfl | hmem
    · exact .inr rfl
    · exact .inl hmem
  | _ => exact ⟨List.suffix_refl _, fun _ hmem => .inl hmem⟩

/-- Statements declare variables in the innermost scope only. -/
theorem typedStmts_suffix {body : List Stmt}
    (h : TypedStmts scopes ret path declared body declared') :
    declared <:+ declared' ∧ ∀ key ∈ declared', key ∈ declared ∨ path.head? = some key.1 := by
  induction body generalizing declared with
  | nil =>
    cases h
    exact ⟨List.suffix_refl _, fun _ hmem => .inl hmem⟩
  | cons stmt rest ih =>
    cases h with
    | cons hs hrest =>
      obtain ⟨hsub, hnew⟩ := typedStmt_suffix hs
      obtain ⟨hsub', hnew'⟩ := ih hrest
      refine ⟨hsub.trans hsub', fun key hmem => ?_⟩
      rcases hnew' key hmem with hmem | hhead
      · exact hnew key hmem
      · exact .inr hhead

/-- One part after the other. -/
theorem Grown.trans {declared₁ : List Key} {place₁ place₂ : Key → Nat} {s₁ s₂ : LowerState}
    {n₁ n₂ : Nat} (h₁ : Grown cx path declared declared₁ place place₁ s s₁ n₁)
    (h₂ : Grown cx path declared₁ declared' place₁ place₂ s₁ s₂ n₂) (hsub₁ : declared <:+ declared₁)
    (hsub₂ : declared₁ <:+ declared') :
    Grown cx path declared declared' place place₂ s s₂ (n₁ + n₂) where
  placed := h₂.placed
  elsewhere key hkey := (h₂.elsewhere key hkey).trans (h₁.elsewhere key hkey)
  same heq := by
    subst heq
    obtain rfl := hsub₁.eq_of_length_le hsub₂.length_le
    exact (h₂.same rfl).trans (h₁.same rfl)
  nextSlot := by rw [h₂.nextSlot, h₁.nextSlot, Nat.add_assoc]
  methods := h₂.methods.trans h₁.methods

/-- A block is simulated if its statements are, in its scope. -/
theorem simulated_block {b : Block} {place : Key → Nat} {s : LowerState}
    (hp : Placed cx path declared place s) (hnew : b.scope ∉ path)
    (hs : TypedStmts scopes ret (b.scope :: path) declared b.body declared')
    (hbody : Simulated (cx.inside b) (b.scope :: path) declared declared' place s
      (blockSlots cx.file.scopes b)
      (lowerStmts (cx.inside b) [] b.body)
      fun A fuel σ => execStmts A cx.file.scopes cx.ret fuel b.body (b.scope :: path) σ) :
    Simulated cx path declared declared place s (blockSlots cx.file.scopes b) (lowerBlock cx b)
      fun A fuel σ => execBlock A cx.file.scopes cx.ret fuel b path σ := by
  obtain ⟨c, t, place', hlow, grown, sim⟩ := hbody
  obtain ⟨hsub, hdeclared⟩ := typedStmts_suffix hs
  have hplace : ∀ key ∈ declared, place' key = place key := fun key hkey =>
    grown.elsewhere key fun h => hnew ((show key.1 = b.scope from h) ▸ hp.inPath key hkey)
  refine ⟨c, t, place, (lowerBlock_eq b).symm ▸ hlow, ?_, ?_⟩
  · exact {
      placed := hp.leave grown.placed (fun _ h => hsub.subset h) hplace
      elsewhere := fun _ _ => rfl
      same := fun _ => rfl
      nextSlot := grown.nextSlot
      methods := grown.methods }
  · intro A P m σ fuel hP hat hr
    have run := sim A P m (σ.clear b.scope) fuel hP hat (hr.enter hp.inPath hnew)
    obtain ⟨scope, body, span⟩ := b
    simp only [execBlock]
    refine run.relax fun m₁ σ₁ hf hpc hst hrel => simulates_normal hf hpc hst ?_
    refine hrel.leave (fun _ h => hsub.subset h) (fun key hmem => ?_) hplace hnew
    exact (hdeclared key hmem).imp_right fun h => by simpa using h.symm

/-- A statement and those after it. -/
theorem simulated_cons {stmt : Stmt} {rest : List Stmt} {declared₁ : List Key} {n₁ n₂ : Nat}
    (hsub₁ : declared <:+ declared₁) (hsub₂ : declared₁ <:+ declared')
    (hstmt : Simulated cx path declared declared₁ place
      (s.logged (.statement stmt.kind cx.frame.name)) n₁
      (lowerStmt cx stmt) fun A fuel σ => execStmt A cx.file.scopes cx.ret fuel stmt path σ)
    (hrest : ∀ place₁ s₁, Placed cx path declared₁ place₁ s₁ → s₁.body.nextSlot =
      s.body.nextSlot + n₁ →
      Simulated cx path declared₁ declared' place₁ s₁ n₂ (lowerStmts cx [] rest)
        fun A fuel σ => execStmts A cx.file.scopes cx.ret fuel rest path σ) :
    Simulated cx path declared declared' place s (n₁ + n₂) (lowerStmts cx [] (stmt :: rest))
      fun A fuel σ => execStmts A cx.file.scopes cx.ret fuel (stmt :: rest) path σ := by
  obtain ⟨c₁, s₁, place₁, hlow₁, grown₁, sim₁⟩ := hstmt
  obtain ⟨c₂, s₂, place₂, hlow₂, grown₂, sim₂⟩ := hrest place₁ s₁ grown₁.placed grown₁.nextSlot
  have grown := grown₁.trans grown₂ hsub₁ hsub₂
  refine ⟨c₁ ++ c₂, s₂, place₂, lowerStmts_cons.mpr ⟨c₁, s₁, c₂, hlow₁, hlow₂, rfl⟩,
    ⟨grown.placed, grown.elsewhere, grown.same, grown.nextSlot, grown.methods⟩, ?_⟩
  intro A P m σ fuel hP hat hr
  simp only [execStmts]
  refine (sim₁ A P m σ fuel hP hat.left hr).andThen fun m₁ σ₁ hf hpc hst hr₁ => ?_
  have run := sim₂ A P m₁ σ₁ fuel hP (by rw [hpc]; exact hat.right) hr₁
  refine run.relax fun m₂ σ₂ hf₂ hpc₂ hst₂ hr₂ => ?_
  refine simulates_normal ?_ ?_ (hst₂.trans hst) hr₂
  · rw [fallsThrough_append, hf, hf₂, ite_self]
  · rw [hpc₂, hpc, List.length_append, Nat.add_assoc]

end Parts

mutual

/-- Typed statements are lowered, and to code that does what they do. -/
theorem lowerStmt_simulated {cx : BodyContext} {path : List ScopeId} {declared declared' : List Key}
    {place : Key → Nat} {s : LowerState} (stmt : Stmt) (hb : cx.bindings = [])
    (hp : Placed cx path declared place s)
    (hfit : s.body.nextSlot + stmtSlots cx.file.scopes cx.scope stmt ≤ 65536)
    (ht : TypedStmt cx.file.scopes cx.ret path declared stmt declared') :
    Simulated cx path declared declared' place s (stmtSlots cx.file.scopes cx.scope stmt)
      (lowerStmt cx stmt)
      fun A fuel σ => execStmt A cx.file.scopes cx.ret fuel stmt path σ := by
  cases ht with
  | expr he => exact simulated_expr hb hp hfit he
  | assign hk he hjk => exact simulated_assign hb hp hfit hk he hjk
  | step hk hnum => exact simulated_step hp hfit hk hnum
  | var hown hk he hjk =>
    obtain rfl := Option.some.inj hp.here
    exact simulated_var hb hp hfit hown hk he hjk
  | leave hret => exact simulated_leave hp hret
  | discard hret he => exact simulated_discard hb hp hfit hret he
  | ret hret hk he hjk => exact simulated_ret hb hp hfit hret hk he hjk
  | ifThen ht htb =>
    rw [stmtSlots] at hfit ⊢
    exact simulated_ifThen hb hp hfit ht fun s hp hfit => lowerBlock_simulated _ hb hp hfit htb
  | ifElse ht htb hbranch =>
    rw [stmtSlots] at hfit ⊢
    exact simulated_ifElse hb hp hfit ht (fun s hp hfit => lowerBlock_simulated _ hb hp hfit htb)
      fun s hp hfit => lowerStmt_simulated _ hb hp hfit hbranch
  | whileLoop ht htb =>
    rw [stmtSlots] at hfit ⊢
    exact simulated_whileLoop hb hp hfit ht fun s hp hfit => lowerBlock_simulated _ hb hp hfit htb
  | block htb =>
    rw [stmtSlots] at hfit ⊢
    simp only [lowerStmt, execStmt]
    exact lowerBlock_simulated _ hb hp hfit htb

theorem lowerBlock_simulated {cx : BodyContext} {path : List ScopeId} {declared : List Key}
    {place : Key → Nat} {s : LowerState} (b : Block) (hb : cx.bindings = [])
    (hp : Placed cx path declared place s)
    (hfit : s.body.nextSlot + blockSlots cx.file.scopes b ≤ 65536)
    (ht : TypedBlock cx.file.scopes cx.ret path declared b) :
    Simulated cx path declared declared place s (blockSlots cx.file.scopes b) (lowerBlock cx b)
      fun A fuel σ => execBlock A cx.file.scopes cx.ret fuel b path σ := by
  obtain ⟨scope, body, span⟩ := b
  cases ht with
  | intro hnew hparent hs =>
    obtain rfl := Option.some.inj hp.here
    exact simulated_block hp hnew hs (lowerStmts_simulated body hb (hp.enter hnew hparent) hfit hs)

theorem lowerStmts_simulated {cx : BodyContext} {path : List ScopeId}
    {declared declared' : List Key} {place : Key → Nat} {s : LowerState} (body : List Stmt)
    (hb : cx.bindings = []) (hp : Placed cx path declared place s)
    (hfit : s.body.nextSlot + stmtsSlots cx.file.scopes cx.scope body ≤ 65536)
    (ht : TypedStmts cx.file.scopes cx.ret path declared body declared') :
    Simulated cx path declared declared' place s (stmtsSlots cx.file.scopes cx.scope body)
      (lowerStmts cx [] body)
      fun A fuel σ => execStmts A cx.file.scopes cx.ret fuel body path σ := by
  cases ht with
  | nil =>
    refine ⟨[], s, place, lowerStmts_nil.mpr ⟨rfl, rfl⟩, .labels hp 0,
      fun A P m σ fuel hP hat hr => ?_⟩
    exact simulates_normal rfl rfl rfl hr
  | cons hs hrest =>
    rw [stmtsSlots] at hfit ⊢
    refine simulated_cons (typedStmt_suffix hs).1 (typedStmts_suffix hrest).1
      (lowerStmt_simulated _ hb (hp.congr rfl rfl) (show s.body.nextSlot + _ ≤ _ by omega) hs) ?_
    exact fun place₁ s₁ hp₁ hnext => lowerStmts_simulated _ hb hp₁ (by omega) hrest

end

end ClassGen.Preservation
