import ClassGen.Proofs.Assignment.Flow
import ClassGen.Proofs.Assignment.Scopes
import ClassGen.Proofs.Slots.Layout

/-! Lowered statements store to a variable before they read it. What a statement may rely on are the
slots of the arguments and of the variables of the scopes around it; what the blocks of a statement
declare is not in sight behind it. -/

namespace ClassGen

open Run

variable {cx : BodyContext} {X Y : Set UInt16} {s t u : LowerState} {c : Code}
  {ids more : List ScopeId}

theorem Representation.isStore_storeOp (r : Representation) : r.storeOp.isStore = true := by
  rcases r with kind | _ | _ <;> first | rfl | cases kind <;> rfl

theorem Code.Assigns.storeSlot {ρ : Label → Set UInt16} (n : Nat) (r : Representation) :
    Code.Assigns ρ [Code.storeSlot n r] X (insert n.toUInt16 X) :=
  .store r.isStore_storeOp

/-! ### Variables that have been stored to -/

/-- The arguments and all variables in sight have been stored to. -/
structure Knows (cx : BodyContext) (X : Set UInt16) (s : LowerState) : Prop where
  args : ∀ a ∈ cx.frame.args, a.slot.toUInt16 ∈ X
  locals : ∀ entry ∈ s.body.locals, entry.1.1 ∈ cx.file.scopes.chain cx.scope →
    entry.2.slot.toUInt16 ∈ X

/-- From `s` to `t` only variables of these scopes were declared. -/
def Adds (s t : LowerState) (ids : List ScopeId) : Prop :=
  ∀ entry ∈ t.body.locals, entry ∈ s.body.locals ∨ entry.1.1 ∈ ids

namespace Adds

theorem of_eq (h : t.body.locals = s.body.locals) : Adds s t ids := fun _ hentry =>
    .inl (h ▸ hentry)

theorem trans (hst : Adds s t ids) (htu : Adds t u more) : Adds s u (ids ++ more) :=
  fun entry hentry =>
  (htu entry hentry).elim (fun h => (hst entry h).imp_right (List.mem_append_left more)) fun h =>
    .inr (List.mem_append_right ids h)

theorem mono (h : Adds s t ids) (hsub : ids ⊆ more) : Adds s t more := fun entry hentry =>
  (h entry hentry).imp_right fun hid => hsub hid

theorem congr_left (h : Adds s t ids) (heq : s.body.locals = u.body.locals) : Adds u t ids :=
  fun entry hentry =>
  heq ▸ h entry hentry

theorem withLocal (s : LowerState) (scope : ScopeId) (name : String) (type : Ty) :
    Adds s (s.withLocal scope name type) [scope] := by
  intro entry hentry
  rcases Dict.mem_insert hentry with rfl | hentry
  · exact .inr (List.mem_singleton_self scope)
  · exact .inl hentry

end Adds

namespace Knows

theorem congr (h : Knows cx X s) (heq : t.body.locals = s.body.locals) : Knows cx X t :=
  ⟨h.args, heq ▸ h.locals⟩

theorem mono (h : Knows cx X s) (hXY : X ⊆ Y) : Knows cx Y s :=
  ⟨fun a ha => hXY (h.args a ha), fun entry hentry hid => hXY (h.locals entry hentry hid)⟩

/-- Variables that went out of sight do not count. -/
theorem of_adds (h : Knows cx X s) (hadds : Adds s t ids)
    (hids : ∀ id ∈ ids, id ∉ cx.file.scopes.chain cx.scope) : Knows cx X t :=
  ⟨h.args, fun entry hentry hid =>
    (hadds entry hentry).elim (fun hentry => h.locals entry hentry hid) fun hnew =>
    absurd hid (hids _ hnew)⟩

/-- A variable counts as soon as it has been stored to. -/
theorem withLocal (h : Knows cx X s) (scope : ScopeId) (name : String) (type : Ty) :
    Knows cx (insert s.body.nextSlot.toUInt16 X) (s.withLocal scope name type) := by
  refine ⟨fun a ha => .inr (h.args a ha), fun entry hentry hid => ?_⟩
  rcases Dict.mem_insert hentry with rfl | hentry
  · exact .inl rfl
  · exact .inr (h.locals entry hentry hid)

/-- What an expression accesses is in sight. -/
theorem sight (h : Knows cx X s) {op : Opcode} {n : UInt16}
    (hsight : cx.InSight s.body.locals op n) : n ∈ X := by
  have hlocal {id : ScopeId} {name : String} {l : LocalVar}
      (hid : id ∈ cx.file.scopes.chain cx.scope)
      (hl : s.body.locals.lookup (id, name) = some l) : l.slot.toUInt16 ∈ X := by
    obtain ⟨before, after, heq, -⟩ := List.lookup_eq_some_iff.mp hl
    exact h.locals ((id, name), l) (heq ▸ List.mem_append_right _ List.mem_cons_self) hid
  cases hsight with
  | load hid hl => exact hlocal hid hl
  | store hid hl => exact hlocal hid hl
  | loadArg ha => exact h.args _ ha
  | storeArg ha => exact h.args _ ha

theorem confined {e : Expr} {v : Lowered} (h : Knows cx X s) (hv : lowerExpr cx e s = .ok v t) :
    v.code.Confined (fun _ n => n ∈ X) [] :=
  (lowerExpr_confined hv).allow fun _ _ => h.sight

/-- An expression, put into the type that is asked for. -/
theorem coerced {e : Expr} {v : Lowered} (h : Knows cx X s) (hv : lowerExpr cx e s = .ok v t)
    (type : Ty) :
    Labelled s.body.nextLabel t.body.nextLabel fun ρ =>
      (v.code ++ coerce v.type type).Assigns ρ X X :=
  Code.Assigns.labelled ((lowerExpr_fresh hv).congr (by simp)) ((h.confined hv).coerced type)

end Knows

/-- Where lowering of statements stands whose blocks have the scopes `ids`. -/
structure Fits (cx : BodyContext) (X : Set UInt16) (ids : List ScopeId) (s : LowerState) :
    Prop extends
    Knows cx X s where
  depth : ∃ n, cx.file.scopes.Depth cx.scope n
  nodup : ids.Nodup
  unused : ∀ entry ∈ s.body.locals, entry.1.1 ∉ ids

namespace Fits

theorem congr (h : Fits cx X ids s) (heq : t.body.locals = s.body.locals) : Fits cx X ids t :=
  ⟨h.toKnows.congr heq, h.depth, h.nodup, heq ▸ h.unused⟩

theorem mono (h : Fits cx X ids s) (hXY : X ⊆ Y) : Fits cx Y ids s :=
  ⟨h.toKnows.mono hXY, h.depth, h.nodup, h.unused⟩

theorem left (h : Fits cx X (ids ++ more) s) : Fits cx X ids s :=
  ⟨h.toKnows, h.depth, h.nodup.of_append_left, fun entry hentry hid =>
    h.unused entry hentry (List.mem_append_left more hid)⟩

/-- On to the statements behind. -/
theorem next (h : Fits cx X (ids ++ more) s) (hknows : Knows cx Y t)
    (hadds : Adds s t (cx.scope :: ids)) (hscope : cx.scope ∉ more) : Fits cx Y more t := by
  refine ⟨hknows, h.depth, h.nodup.of_append_right, fun entry hentry hid => ?_⟩
  rcases hadds entry hentry with hold | hnew
  · exact h.unused entry hold (List.mem_append_right ids hid)
  · rcases List.mem_cons.mp hnew with heq | hnew
    · exact hscope (heq ▸ hid)
    · exact List.disjoint_of_nodup_append h.nodup hnew hid

/-- Into a block. -/
theorem enter {b : Block} (h : Fits cx X b.scopes s)
    (hnested : b.isNested cx.file.scopes.parent? cx.scope = true) :
    Fits (cx.inside b) X (scopesOf b.body) s := by
  obtain ⟨hparent, -⟩ := Block.isNested_iff.mp hnested
  obtain ⟨n, hdepth⟩ := h.depth
  have hnodup := h.nodup
  have hunused := h.unused
  rw [Block.scopes_eq] at hnodup hunused
  refine ⟨⟨h.args, fun entry hentry hid => ?_⟩, ⟨n + 1, .child hparent hdepth⟩,
    (List.nodup_cons.mp hnodup).2, fun entry hentry hid =>
      hunused entry hentry (List.mem_cons_of_mem _ hid)⟩
  rcases ScopeTree.mem_chain_child hparent hid with hid | hid
  · exact absurd (hid ▸ List.mem_cons_self) (hunused entry hentry)
  · exact h.locals entry hentry hid

/-- Into a block that has a variable before its first statement. -/
theorem declare {b : Block} (h : Fits cx X b.scopes s)
    (hnested : b.isNested cx.file.scopes.parent? cx.scope = true) (name : String) (type : Ty) :
    Fits (cx.inside b) (insert s.body.nextSlot.toUInt16 X) (scopesOf b.body)
      (s.withLocal b.scope name type) := by
  have hinside := h.enter hnested
  have hnodup := h.nodup
  rw [Block.scopes_eq] at hnodup
  refine ⟨hinside.toKnows.withLocal b.scope name type, hinside.depth, hinside.nodup,
    fun entry hentry hid => ?_⟩
  rcases Dict.mem_insert hentry with rfl | hentry
  · exact (List.nodup_cons.mp hnodup).1 hid
  · exact hinside.unused entry hentry hid

/-- Scopes of blocks to come are not around. -/
theorem notMem_chain (h : Fits cx X ids s)
    (hdeeper : ∀ {n}, cx.file.scopes.Depth cx.scope n → ∀ id ∈ more, ∃ m, n < m ∧
      cx.file.scopes.Depth id m) :
    ∀ id ∈ more, id ∉ cx.file.scopes.chain cx.scope := by
  obtain ⟨n, hdepth⟩ := h.depth
  intro id hid
  obtain ⟨m, hlt, hm⟩ := hdeeper hdepth id hid
  exact hdepth.notMem_chain hm hlt

/-- On from a block, whose variables are then out of sight, to the blocks behind it. -/
theorem behind (h : Fits cx X (ids ++ more) s) (hadds : Adds s t ids)
    (hids : ∀ {n}, cx.file.scopes.Depth cx.scope n → ∀ id ∈ ids, ∃ m, n < m ∧
      cx.file.scopes.Depth id m)
    (hmore : ∀ {n}, cx.file.scopes.Depth cx.scope n → ∀ id ∈ more, ∃ m, n < m ∧
      cx.file.scopes.Depth id m) :
    Fits cx X more t :=
  h.next (h.toKnows.of_adds hadds (h.notMem_chain hids))
    (hadds.mono (List.subset_cons_self _ _)) fun hid =>
    h.notMem_chain hmore cx.scope hid ScopeTree.self_mem_chain

end Fits

/-! ### Statements -/

/-- The code reads what was stored to before, and no variable is in sight behind it that was not
before it. -/
structure Keeps (X : Set UInt16) (ids : List ScopeId) (s : LowerState) (c : Code)
    (t : LowerState) : Prop where
  code : Labelled s.body.nextLabel t.body.nextLabel fun ρ => c.Assigns ρ X X
  adds : Adds s t ids

/-- The code reads what was stored to before; a variable that comes in sight has been stored to. -/
structure Extends (cx : BodyContext) (X : Set UInt16) (ids : List ScopeId)
    (s : LowerState) (c : Code) (t : LowerState) (Y : Set UInt16) : Prop where
  subset : X ⊆ Y
  code : Labelled s.body.nextLabel t.body.nextLabel fun ρ => c.Assigns ρ X Y
  knows : Knows cx Y t
  adds : Adds s t (cx.scope :: ids)

def StmtExtends (st : Stmt) : Prop :=
  ∀ {cx : BodyContext} {X : Set UInt16} {s t : LowerState} {c : Code}, lowerStmt cx st s = .ok c t →
    st.isNested cx.file.scopes.parent? cx.scope = true → Fits cx X st.scopes s →
      (st.declares = false → Keeps X st.scopes s c t) ∧ ∃ Y, Extends cx X st.scopes s c t Y

def BlockKeeps (b : Block) : Prop :=
  ∀ {cx : BodyContext} {X : Set UInt16} {s t : LowerState} {c : Code}, lowerBlock cx b s = .ok c t →
    b.isNested cx.file.scopes.parent? cx.scope = true → Fits (cx.inside b) X (scopesOf b.body) s →
      Keeps X b.scopes s c t

def StmtsExtend (body : List Stmt) : Prop :=
  ∀ {cx : BodyContext} {X : Set UInt16} {s t : LowerState} {c : Code},
    lowerStmts cx [] body s = .ok c t →
    stmtsNested cx.file.scopes.parent? cx.scope body = true → Fits cx X (scopesOf body) s →
      ∃ Y, Extends cx X (scopesOf body) s c t Y

/-- The arms leave to `done`. -/
def ArmsKeep (arms : List Arm) : Prop :=
  ∀ {cx : BodyContext} {X : Set UInt16} {subject : Nat} {done : Label}
    {s t : LowerState} {c : Code}, lowerArms cx subject done arms s = .ok c t →
      armsNested cx.file.scopes.parent? cx.scope arms = true →
      Fits cx X (scopesOfArms arms) s → subject.toUInt16 ∈ X →
        (Labelled s.body.nextLabel t.body.nextLabel fun ρ => ρ done = X → c.Assigns ρ X X) ∧
          Adds s t (scopesOfArms arms)

/-- A statement that declares nothing itself. -/
theorem stmtExtends_of_keeps {st : Stmt}
    (h : ∀ {cx : BodyContext} {X : Set UInt16} {s t : LowerState} {c : Code},
      lowerStmt cx st s = .ok c t →
      st.isNested cx.file.scopes.parent? cx.scope = true → Fits cx X st.scopes s →
        Keeps X st.scopes s c t) : StmtExtends st := by
  intro cx X s t c hrun hnested hfits
  have hkeeps := h hrun hnested hfits
  refine ⟨fun _ => hkeeps, X, subset_rfl, hkeeps.code, ?_,
    hkeeps.adds.mono (List.subset_cons_self _ _)⟩
  exact hfits.toKnows.of_adds hkeeps.adds (hfits.notMem_chain fun hd =>
    Stmt.deeper hd (Stmt.lexical hnested))

theorem Keeps.expr {e : Expr} {v : Lowered} (hv : lowerExpr cx e s = .ok v t)
    (h : Labelled s.body.nextLabel t.body.nextLabel fun ρ => c.Assigns ρ X X) : Keeps X ids s c t :=
  ⟨h, .of_eq (lowerExpr_kept hv).locals⟩

theorem extends_expr (value : Expr) : StmtExtends (.expr value) :=
  stmtExtends_of_keeps fun {cx X s t c} h hnested hfits => by
    cases stmtRun_of_ok h with
    | expr hv =>
      exact .expr hv (Code.Assigns.labelled
        ((lowerExpr_fresh hv).congr (by simp)) (hfits.confined hv).dropped)
    | nothing hn => cases hn

theorem extends_ret (span : Span) (value : Expr) : StmtExtends (.ret span value) :=
  stmtExtends_of_keeps fun {cx X s t c} h hnested hfits => by
    cases stmtRun_of_ok h with
    | leave hret he =>
        exact ⟨Code.Assigns.labelled (Code.fresh_unmarked (Nat.le_refl _) rfl)
          (.of_simple rfl), .of_eq rfl⟩
    | discard hret he hv =>
      refine .expr hv (Code.Assigns.labelled ((lowerExpr_fresh hv).congr ?_)
        ((hfits.confined hv).dropped.append (.of_simple rfl)))
      simp [Instr.mark?]
    | ret hret he hv hvv =>
      refine .expr hv (Code.Assigns.labelled ((lowerExpr_fresh hv).congr ?_)
        (((hfits.confined hv).coerced cx.ret).append (.of_simple rfl)))
      simp [Code.returnValue, Instr.mark?]
    | nothing hn => cases hn

theorem extends_var (span : Span) (name : String) (init : Expr) :
    StmtExtends (.var span name init) := by
  intro cx X s t c h hnested hfits
  cases stmtRun_of_ok h with
  | var ht hvoid hv hvv =>
    rename_i v s₁ type
    have hknows := hfits.toKnows.congr (lowerExpr_kept hv).locals
    refine ⟨nofun, insert s₁.body.nextSlot.toUInt16 X, Set.subset_insert _ _, ?_,
      hknows.withLocal cx.scope name type, ?_⟩
    · exact (hfits.toKnows.coerced hv type).mono fun ρ hvalue => hvalue.append (.storeSlot _ _)
    · refine ((Adds.withLocal s₁ cx.scope name type).congr_left (lowerExpr_kept hv).locals).mono ?_
      simp
  | nothing hn => cases hn

theorem extends_ifThen {span : Span} {test : Expr} {body : Block} (ih : BlockKeeps body) :
    StmtExtends (.ifElse span test body none) :=
  stmtExtends_of_keeps fun {cx X s t c} h hnested hfits => by
    rw [Stmt.isNested] at hnested
    rw [Stmt.scopes] at hfits ⊢
    cases stmtRun_of_ok h with
    | ifThen hv hvv hb =>
      have hlocals := (lowerExpr_kept hv).locals
      have htest := (hfits.toKnows.congr (t := s.skip 1) rfl).coerced hv .boolean
      have hblock := ih hb hnested ((hfits.congr hlocals).enter hnested)
      refine ⟨?_, hblock.adds.congr_left hlocals⟩
      have hall := (Labelled.at_label s.body.nextLabel X).and (htest.and hblock.code)
      refine hall.mono fun ρ hρ => ?_
      obtain ⟨hdone, htest, hblock⟩ := hρ
      exact ((htest.append (.jump hdone.subset)).append hblock).append (.land hdone)
    | nothing hn => cases hn

theorem extends_ifElse {span : Span} {test : Expr} {body : Block} {branch : Stmt}
    (ih : BlockKeeps body) (ihb : StmtExtends branch) :
    StmtExtends (.ifElse span test body (some branch)) :=
  stmtExtends_of_keeps fun {cx X s t c} h hnested hfits => by
    rw [Stmt.isNested, Bool.and_eq_true, Bool.and_eq_true, Bool.not_eq_true'] at hnested
    obtain ⟨⟨hbody, hbranch⟩, hdeclares⟩ := hnested
    rw [Stmt.scopes] at hfits ⊢
    cases stmtRun_of_ok h with
    | ifElse hv hvv hb he =>
      rename_i s₁ s₂ v b e
      have hlocals := (lowerExpr_kept hv).locals
      have htest := (hfits.toKnows.congr (t := s.skip 1) rfl).coerced hv .boolean
      have hfits₁ := hfits.congr hlocals
      have hblock := ih hb hbody (hfits₁.left.enter hbody)
      -- What the first branch declares is out of sight in the second.
      have hfits₂ := hfits₁.behind hblock.adds (fun hd => body.deeper hd (body.lexical hbody))
        fun hd => Stmt.deeper hd (Stmt.lexical hbranch)
      have hother := (ihb he hbranch (hfits₂.congr rfl)).1 hdeclares
      refine ⟨?_, (hblock.adds.trans (hother.adds.congr_left rfl)).congr_left hlocals⟩
      have first := (Labelled.at_label s.body.nextLabel X).and (htest.and hblock.code)
      have second := (Labelled.at_label s₂.body.nextLabel X).and hother.code
      refine (first.and second).mono fun ρ hρ => ?_
      obtain ⟨⟨helse, htest, hblock⟩, hdone, hother⟩ := hρ
      have hend : Code.Assigns ρ (if Code.fallsThrough b then [.mark s₂.body.nextLabel]
          else []) X X := by
        split_ifs
        · exact .land hdone
        · exact subset_rfl
      have hjump : Code.Assigns ρ [.jump .ifeq s.body.nextLabel] X X := .jump helse.subset
      have hfirst := (htest.append hjump).append (hblock.thenGoto (fun _ => hdone.subset) X)
      exact ((hfirst.append (.land helse)).append hother).append hend
    | nothing hn => cases hn

theorem extends_whileLoop {span : Span} {test : Expr} {body : Block} (ih : BlockKeeps body) :
    StmtExtends (.whileLoop span test body) :=
  stmtExtends_of_keeps fun {cx X s t c} h hnested hfits => by
    rw [Stmt.isNested] at hnested
    rw [Stmt.scopes] at hfits ⊢
    cases stmtRun_of_ok h with
    | whileLoop hv hvv hb =>
      have hlocals := (lowerExpr_kept hv).locals
      have htest := (hfits.toKnows.congr (t := s.skip 2) rfl).coerced hv .boolean
      have hblock := ih hb hnested ((hfits.congr hlocals).enter hnested)
      refine ⟨?_, hblock.adds.congr_left hlocals⟩
      have hlabels := (Labelled.at_label s.body.nextLabel X).and
        (Labelled.at_label (s.body.nextLabel + 1) X)
      refine (hlabels.and (htest.and hblock.code)).mono fun ρ hρ => ?_
      obtain ⟨⟨hstart, hdone⟩, htest, hblock⟩ := hρ
      have hleave : Code.Assigns ρ [.jump .ifeq (s.body.nextLabel + 1)] X X := .jump hdone.subset
      have hround := (((Code.Assigns.land hstart).append htest).append hleave).append hblock
      exact hround.append (.back hstart.subset hdone)
    | nothing hn => cases hn

/-- The variable of a loop gets the next element. -/
theorem Code.Assigns.advanceLoop {ρ : Label → Set UInt16} {iterator : Nat} {done : Label}
    (element : LocalVar) (hiterator : iterator.toUInt16 ∈ X) (hdone : ρ done = X) :
    (advanceLoop iterator element done).Assigns ρ X (insert element.slot.toUInt16 X) := by
  refine Code.Assigns.append (.unmarked (.nextElement hiterator (List.mem_singleton_self done)) ?_
    (by simpa using hdone)) (.storeSlot _ _)
  simp [Instr.mark?, Code.loadSlot, Code.callInterface]

theorem extends_forEach {span : Span} {binding : String} {iterable : Expr} {body : Block}
    (ih : BlockKeeps body) : StmtExtends (.forEach span binding iterable body) :=
  stmtExtends_of_keeps fun {cx X s t c} h hnested hfits => by
    rw [Stmt.isNested] at hnested
    rw [Stmt.scopes] at hfits ⊢
    cases stmtRun_of_ok h with
    | forEach hv hit htype hb =>
      rename_i s₁ source code type b
      have hlocals := (lowerExpr_kept hv).locals
      -- At both labels the iterator is stored; the variable of the loop is stored anew in each
      -- round.
      let X₁ := insert s₁.body.nextSlot.toUInt16 X
      have hXX₁ : X ⊆ X₁ := Set.subset_insert _ _
      have hsource := Code.Assigns.labelled
        ((lowerExpr_fresh hv).congr (by simp [marks_iteratorCode hit]))
        ((hfits.confined hv).append (.of_simple (all_simple_iteratorCode hit)))
      have hloop := ((hfits.congr hlocals).mono hXX₁).congr (t := s₁.withSlot .reference) rfl
      have hblock := ih hb hnested ((hloop.declare hnested binding type).congr rfl)
      refine ⟨?_, ?_⟩
      · have hlabels := (Labelled.at_label s₁.body.nextLabel X₁).and
          (Labelled.at_label (s₁.body.nextLabel + 1) X₁)
        refine (hsource.and (hlabels.and hblock.code)).mono fun ρ hρ => ?_
        obtain ⟨hsource, ⟨hstart, hdone⟩, hblock⟩ := hρ
        have hopen := (hsource.append (Code.Assigns.storeSlot s₁.body.nextSlot .reference)).append
          (.land hstart)
        have hadvance := Code.Assigns.advanceLoop ⟨(s₁.withSlot .reference).body.nextSlot, type⟩
          (Set.mem_insert _ _) hdone
        refine (((hopen.append hadvance).append hblock).append (.back ?_ hdone)).forget hXX₁
        exact hstart.subset.trans (Set.subset_insert _ _)
      · have hbound := Adds.withLocal (s₁.withSlot .reference) body.scope binding type
        refine ((hbound.trans (hblock.adds.congr_left rfl)).congr_left hlocals).mono ?_
        simp [Block.scopes_eq]
    | nothing hn => cases hn

theorem extends_matchType {span : Span} {subject : Expr} {arms : List Arm} (ih : ArmsKeep arms) :
    StmtExtends (.matchType span subject arms) :=
  stmtExtends_of_keeps fun {cx X s t c} h hnested hfits => by
    rw [Stmt.isNested] at hnested
    rw [Stmt.scopes] at hfits ⊢
    cases stmtRun_of_ok h with
    | matchType hv hvv ha =>
      rename_i s₁ v a
      have hlocals := (lowerExpr_kept hv).locals
      let X₁ := insert s₁.body.nextSlot.toUInt16 X
      have hXX₁ : X ⊆ X₁ := Set.subset_insert _ _
      have hvalue := hfits.toKnows.coerced hv .object
      obtain ⟨harms, hadds⟩ := ih ha hnested (((hfits.congr hlocals).mono hXX₁).congr rfl)
        (Set.mem_insert _ _)
      refine ⟨?_, (hadds.congr_left rfl).congr_left hlocals⟩
      refine (hvalue.and ((Labelled.at_label s₁.body.nextLabel X₁).and harms)).mono fun ρ hρ => ?_
      obtain ⟨hvalue, hdone, harms⟩ := hρ
      have hopen := hvalue.append (Code.Assigns.storeSlot s₁.body.nextSlot .reference)
      exact ((hopen.append (harms hdone)).append (.land hdone)).forget hXX₁
    | nothing hn => cases hn

/-! ### Arms -/

theorem armsKeep_nil : ArmsKeep [] := by
  intro cx X subject done s t c h hnested hfits hsubject
  rw [lowerArms, pure_ok] at h
  obtain ⟨rfl, rfl⟩ := h
  exact ⟨.of_forall (Nat.le_refl _) fun _ _ => subset_rfl, .of_eq rfl⟩

/-- After the subject was bound the variable of the arm, if it has one, is in sight. -/
theorem bindSubject_fits {subject : Nat} {pattern : Ty} {binding : String} {b : Block}
    (h : bindSubject subject pattern b.scope binding s = .ok c t) (hfits : Fits cx X b.scopes s)
    (hnested : b.isNested cx.file.scopes.parent? cx.scope = true)
    (hsubject : subject.toUInt16 ∈ X) :
    ∃ Y, X ⊆ Y ∧ (∀ ρ, c.Assigns ρ X Y) ∧ Fits (cx.inside b) Y (scopesOf b.body) t ∧
      Adds s t [b.scope] ∧
      t.body.nextLabel = s.body.nextLabel := by
  have h := bindSubject_ok.mp h
  split_ifs at h
  · obtain ⟨rfl, rfl⟩ := h
    exact ⟨X, subset_rfl, fun _ => subset_rfl, hfits.enter hnested, .of_eq rfl, rfl⟩
  · obtain ⟨rfl, rfl⟩ := h
    refine ⟨_, Set.subset_insert _ X, fun ρ => ?_, hfits.declare hnested _ _,
      .withLocal _ _ _ _, rfl⟩
    exact (Code.Assigns.unmarked (.boundSubject hsubject) (marks_boundSubject _ _)
      (by simp : ∀ l ∈ [], _)).append
      (.storeSlot _ _)

theorem armsKeep_cons {arm : Arm} {rest : List Arm} (ih : BlockKeeps arm.body)
    (ihr : ArmsKeep rest) : ArmsKeep (arm :: rest) := by
  intro cx X subject done s t c h hnested hfits hsubject
  obtain ⟨pattern, bound, s₁, b, s₂, a, -, hbound, hb, ha, rfl⟩ := lowerArms_cons h
  obtain ⟨armPattern, binding, body, span⟩ := arm
  rw [armsNested, Bool.and_eq_true] at hnested
  rw [scopesOfArms] at hfits ⊢
  obtain ⟨Y, hXY, hbind, hinside, hadds, hlabel⟩ :=
    bindSubject_fits hbound (hfits.left.congr rfl) hnested.1 hsubject
  have hblock := ih hb hnested.1 hinside
  have hdeclared : Adds s s₂ body.scopes := by
    refine ((hadds.trans hblock.adds).congr_left rfl).mono ?_
    simp [Block.scopes_eq]
  have hfits₂ := hfits.behind hdeclared (fun hd => body.deeper hd (body.lexical hnested.1))
    fun hd => arms_deeper hd (arms_lexical hnested.2)
  obtain ⟨hrest, hmore⟩ := ihr ha hnested.2 hfits₂ hsubject
  refine ⟨?_, hdeclared.trans hmore⟩
  have hcode := hblock.code
  rw [hlabel] at hcode
  refine ((Labelled.at_label s.body.nextLabel X).and (hcode.and hrest)).mono fun ρ hρ hdone => ?_
  obtain ⟨hnext, hcode, hrest⟩ := hρ
  have htest : Code.Assigns ρ (patternTest subject s.body.nextLabel pattern) X X :=
    .unmarked (.patternTest hsubject (List.mem_singleton_self _)) (marks_patternTest _ _ _)
      (by simpa using hnext)
  have hleave := hcode.thenGoto (fun _ => hdone.subset.trans hXY) X
  exact (((htest.append (hbind ρ)).append hleave).append (.land hnext)).append (hrest hdone)

/-! ### Blocks -/

theorem stmtsExtend_nil : StmtsExtend [] := by
  intro cx X s t c h hnested hfits
  obtain ⟨rfl, rfl⟩ := lowerStmts_nil.mp h
  exact ⟨X, subset_rfl, .of_forall (Nat.le_refl _) fun _ => subset_rfl, hfits.toKnows, .of_eq rfl⟩

theorem stmtsExtend_cons {stmt : Stmt} {rest : List Stmt} (ih : StmtExtends stmt)
    (ihr : StmtsExtend rest) : StmtsExtend (stmt :: rest) := by
  intro cx X s t c h hnested hfits
  obtain ⟨c₁, s₁, c₂, h₁, h₂, rfl⟩ := lowerStmts_cons.mp h
  rw [stmtsNested, Bool.and_eq_true] at hnested
  rw [scopesOf] at hfits ⊢
  obtain ⟨-, Y, hfirst⟩ := ih h₁ hnested.1 (hfits.left.congr rfl)
  have hadds := hfirst.adds.congr_left (u := s) rfl
  have hscope := fun hid => hfits.notMem_chain (fun hd => stmts_deeper hd (stmts_lexical hnested.2))
    cx.scope hid ScopeTree.self_mem_chain
  obtain ⟨Z, hrest⟩ := ihr h₂ hnested.2 (hfits.next hfirst.knows hadds hscope)
  refine ⟨Z, hfirst.subset.trans hrest.subset, ?_, hrest.knows, (hadds.trans hrest.adds).mono ?_⟩
  · exact (hfirst.code.and hrest.code).mono fun ρ hρ => hρ.1.append hρ.2
  · simp

/-- Behind a block its variables are forgotten. -/
theorem blockKeeps_of_stmts {body : Block} (ih : StmtsExtend body.body) : BlockKeeps body := by
  intro cx X s t c h hnested hfits
  rw [lowerBlock_eq] at h
  obtain ⟨Y, hall⟩ := ih h (Block.isNested_iff.mp hnested).2 hfits
  rw [Block.scopes_eq]
  exact ⟨hall.code.mono fun ρ hρ => hρ.forget hall.subset, hall.adds⟩

theorem extends_block {body : Block} (ih : BlockKeeps body) : StmtExtends (.block body) :=
  stmtExtends_of_keeps fun {cx X s t c} h hnested hfits => by
    rw [lowerStmt] at h
    rw [Stmt.isNested] at hnested
    rw [Stmt.scopes] at hfits ⊢
    exact ih h hnested (hfits.enter hnested)

theorem extends_exported {inner : Stmt} (ih : StmtExtends inner) :
    StmtExtends (.exported inner) := by
  intro cx X s t c h hnested hfits
  rw [lowerStmt] at h
  rw [Stmt.isNested] at hnested
  rw [Stmt.scopes] at hfits ⊢
  rw [Stmt.declares]
  exact ih h hnested hfits

theorem extends_of_leavesBody {st : Stmt} (h : st.LeavesBody) : StmtExtends st :=
  stmtExtends_of_keeps fun {cx X s t c} hrun hnested hfits => by
    obtain ⟨rfl, hbody⟩ := h hrun
    exact ⟨.of_forall (by rw [hbody]) fun _ => subset_rfl, .of_eq (by rw [hbody])⟩

mutual

theorem stmtExtends : ∀ st : Stmt, StmtExtends st
  | .expr value => extends_expr value
  | .var span name init => extends_var span name init
  | .function decl => extends_of_leavesBody (function_leavesBody decl)
  | .struct span name => extends_of_leavesBody (struct_leavesBody span name)
  | .ret span value => extends_ret span value
  | .ifElse _ _ body none => extends_ifThen (blockKeeps body)
  | .ifElse _ _ body (some branch) => extends_ifElse (blockKeeps body) (stmtExtends branch)
  | .whileLoop _ _ body => extends_whileLoop (blockKeeps body)
  | .forEach _ _ _ body => extends_forEach (blockKeeps body)
  | .matchType _ _ arms => extends_matchType (armsKeep arms)
  | .block body => extends_block (blockKeeps body)
  | .exported inner => extends_exported (stmtExtends inner)
  | .use _ _ | .typeAlias _ _ | .unionType _ _ | .enum _ _ | .parameter _ _ =>
      extends_of_leavesBody fun h => by
    cases stmtRun_of_ok h with
    | nothing hn => exact ⟨rfl, rfl⟩

theorem blockKeeps : ∀ b : Block, BlockKeeps b
  | ⟨_, body, _⟩ => blockKeeps_of_stmts (stmtsExtend body)

theorem stmtsExtend : ∀ body : List Stmt, StmtsExtend body
  | [] => stmtsExtend_nil
  | stmt :: rest => stmtsExtend_cons (stmtExtends stmt) (stmtsExtend rest)

theorem armsKeep : ∀ arms : List Arm, ArmsKeep arms
  | [] => armsKeep_nil
  | ⟨_, _, body, _⟩ :: rest => armsKeep_cons (blockKeeps body) (armsKeep rest)

end

end ClassGen
