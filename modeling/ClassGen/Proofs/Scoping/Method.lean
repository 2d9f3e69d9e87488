import ClassGen.Proofs.Scoping.Body
import ClassGen.Proofs.Scoping.SlotUses

/-! The method of a body uses slots as the walk through the body lists them. A name stands for the
slot of the variable or parameter that it means, and the slots of iterators and subjects are those
of no name. -/

namespace ClassGen.Scoping

open Run
open Faithful (after after_ok varType)

/-- Where the things that names mean are stored. -/
inductive Stored (vars : List DeclaredVar) : Option Target → Storage → Prop
  | var {number : Nat} {v : DeclaredVar} (hv : vars[number]? = some v) :
    Stored vars (some (.var number)) (.slot v.var.slot v.var.type)
  | param (index : Nat) (type : Ty) : Stored vars (some (.param index type)) (.param index type)

/-- The slot is that of no argument and of no variable. -/
structure Unnamed (frame : Frame) (vars : List DeclaredVar) (k : Nat) : Prop where
  arg : frame.nextSlot ≤ k
  var : ∀ v ∈ vars, v.var.slot ≠ k

/-- An unnamed slot that was taken before. -/
def Spare (cx : BodyContext) (tr : Trace) (s : LowerState) (k : Nat) : Prop :=
  Unnamed cx.frame tr.vars k ∧ k < s.body.nextSlot

/-- What was walked through is lowered to `c`, and the slots `hidden` are spare. -/
structure Written (cx : BodyContext) (w : Walk) (tr : Trace) (s : LowerState) (hidden : List Nat)
    (c : Code) : Prop where
  performs : Performs cx.frame (Stored tr.vars) (Spare cx tr s) w.slotUses c
  args : cx.frame.nextSlot ≤ s.body.nextSlot
  vars : ∀ v ∈ tr.vars, v.var.slot < s.body.nextSlot
  spare : ∀ k ∈ hidden, Spare cx tr s k

section Steps

variable {cx : BodyContext} {w : Walk} {tr : Trace} {s t : LowerState} {hidden : List Nat}
  {c d : Code} {k : Nat}

theorem Means.stored {vars : List DeclaredVar} {name : String} {around : List ScopeId}
    {target : Option Target} {storage : Storage}
    (h : Means vars name around target (some storage)) : Stored vars target storage := by
  cases h with
  | var hv => exact .var hv
  | param index type => exact .param index type

theorem Stored.append {vars : List DeclaredVar} {target : Option Target} {storage : Storage}
    (h : Stored vars target storage) (more : List DeclaredVar) :
    Stored (vars ++ more) target storage := by
  cases h with
  | var hv =>
    refine .var ?_
    rw [List.getElem?_append_left (List.getElem?_eq_some_iff.mp hv).1, hv]
  | param index type => exact .param index type

/-- Names are stored where they mean it. -/
theorem Aligned.stored (h : Aligned cx w tr s) {name : String} {storage : Storage}
    (hst : StoredAt cx s name storage) :
    Stored tr.vars (resolve cx.file.scopes cx.params name w.blocks) storage := by
  have hmeans := (h.finds ⟨name, {}⟩).means
  rw [lookup_eq] at hmeans
  rw [StoredAt] at hst
  simp only [hst] at hmeans
  exact hmeans.stored

theorem Aligned.of_lowerAs {e : Expr} {target : Ty} (h : Aligned cx w tr s)
    (hrun : ClassGen.lowerAs cx e target s = .ok c t) :
    Aligned cx (w.eval cx.file.scopes cx.params e) (tr ++ Trace.ofExpr cx e s) t := by
  have hreached := h.lowerAs e target
  rwa [hrun] at hreached

theorem ofVar_withLocal (s : LowerState) (scope : ScopeId) (name : String) (type : Ty) :
    Trace.ofVar scope name (s.withLocal scope name type) =
      ⟨[], [⟨scope, name, ⟨s.body.nextSlot, type⟩⟩]⟩ := by
  unfold Trace.ofVar LowerState.withLocal
  rw [Dict.lookup_insert, if_pos rfl]
  rfl

/-- A slot that was taken before is not that of a new variable. -/
theorem Spare.withLocal (h : Spare cx tr s k) (scope : ScopeId) (name : String) (type : Ty) :
    Spare cx (tr ++ Trace.ofVar scope name (s.withLocal scope name type))
      (s.withLocal scope name type) k := by
  rw [ofVar_withLocal]
  refine ⟨⟨h.1.arg, fun v hv => ?_⟩, Nat.lt_add_right _ h.2⟩
  rcases List.mem_append.mp hv with hv | hv
  · exact h.1.var v hv
  · rw [List.mem_singleton.mp hv]
    exact Nat.ne_of_gt h.2

namespace Written

theorem congr (h : Written cx w tr s hidden c) (heq : t.body.nextSlot = s.body.nextSlot) :
    Written cx w tr t hidden c := by
  have hspare : Spare cx tr t = Spare cx tr s := by
    unfold Spare
    rw [heq]
  exact ⟨hspare ▸ h.performs, heq ▸ h.args, heq ▸ h.vars, hspare ▸ h.spare⟩

theorem slotless (h : Written cx w tr s hidden c) (hd : d.isSlotless = true) :
    Written cx w tr s hidden (c ++ d) :=
  ⟨h.performs.then_slotless hd, h.args, h.vars, h.spare⟩

theorem enter (h : Written cx w tr s hidden c) (b : Block) : Written (cx.inside b)
    (w.enter b.scope none) tr s hidden c :=
  ⟨h.performs, h.args, h.vars, h.spare⟩

theorem thenGoto (h : Written cx w tr s hidden (c ++ d)) (target : Label) :
    Written cx w tr s hidden (c ++ thenGoto d target) := by
  unfold ClassGen.thenGoto
  split
  · rw [← List.append_assoc]
    exact h.slotless rfl
  · exact h

theorem forget (h : Written cx w tr s (k :: hidden) c) : Written cx w tr s hidden c :=
  ⟨h.performs, h.args, h.vars, fun k hk => h.spare k (List.mem_cons_of_mem _ hk)⟩

theorem lowerExpr {e : Expr} {v : Lowered} (h : Written cx w tr s hidden c) (ha : Aligned cx w tr s)
    (hv : lowerExpr cx e s = .ok v t) :
    Written cx (w.eval cx.file.scopes cx.params e)
      (tr ++ Trace.ofExpr cx e s) t hidden (c ++ v.code) := by
  refine congr ?_ (lowerExpr_untouched hv).nextSlot
  have hvars : (tr ++ Trace.ofExpr cx e s).vars = tr.vars := List.append_nil _
  have hspare : Spare cx (tr ++ Trace.ofExpr cx e s) s = Spare cx tr s := by
    unfold Spare
    rw [hvars]
  refine ⟨?_, h.args, hvars ▸ h.vars, hspare ▸ h.spare⟩
  rw [hvars, hspare]
  exact h.performs.append ((lowerExpr_performs hv).map (fun _ _ => ha.stored) fun _ hk => hk)

theorem lowerAs {e : Expr} {target : Ty} (h : Written cx w tr s hidden c) (ha : Aligned cx w tr s)
    (hrun : lowerAs cx e target s = .ok d t) :
    Written cx (w.eval cx.file.scopes cx.params e)
      (tr ++ Trace.ofExpr cx e s) t hidden (c ++ d) := by
  obtain ⟨v, r, hv, hinto⟩ := bind_ok.mp hrun
  obtain ⟨-, rfl, rfl⟩ := Lowered.into_ok.mp hinto
  rw [← List.append_assoc]
  exact (h.lowerExpr ha hv).slotless (Code.isSlotless_coerce _ _)

/-- A new variable gets its first value. -/
theorem declare (h : Written cx w tr s hidden c) (ha : Aligned cx w tr s) (name : String)
    (type : Ty) :
    Written cx (w.declare name) (tr ++ Trace.ofVar cx.scope name (s.withLocal cx.scope name type))
      (s.withLocal cx.scope name type) hidden
        (c ++ [Code.storeSlot s.body.nextSlot type.representation]) := by
  have hspare (k : Nat) (hk : Spare cx tr s k) := hk.withLocal cx.scope name type
  obtain ⟨b, outer, hblocks, -⟩ := ha.blocks_eq
  have hlength : w.declared.length = tr.vars.length := by rw [← ha.declared, List.length_map]
  refine ⟨?_, Nat.le_add_right_of_le h.args, fun v hv => ?_, fun k hk => hspare k (h.spare k hk)⟩
  · -- The code before knows one variable more, and its unnamed slots are still unnamed.
    have hold :
        Performs cx.frame
          (Stored (tr ++ Trace.ofVar cx.scope name (s.withLocal cx.scope name type)).vars) _ _ c :=
      h.performs.mono (fun _ _ hst => hst.append _) hspare
    have hnew : Stored (tr ++ Trace.ofVar cx.scope name (s.withLocal cx.scope name type)).vars
        (some (.var w.declared.length)) (.slot s.body.nextSlot type) := by
      rw [ofVar_withLocal, hlength]
      exact .var (v := ⟨cx.scope, name, ⟨s.body.nextSlot, type⟩⟩) List.getElem?_concat_length
    simp only [Walk.declare, hblocks]
    exact hold.append (.of_store hnew)
  · rw [ofVar_withLocal] at hv
    rcases List.mem_append.mp hv with hv | hv
    · exact Nat.lt_add_right _ (h.vars v hv)
    · rw [List.mem_singleton.mp hv]
      exact Nat.lt_add_of_pos_right (Nat.lt_of_lt_of_le Nat.zero_lt_one (Nat.le_max_right ..))

/-- Uses of a slot that was taken before. -/
theorem hide (h : Written cx w tr s hidden c) (hk : k ∈ hidden) (hd : d.KeepsTo k) :
    Written cx w.hide tr s hidden (c ++ d) :=
  ⟨h.performs.append (.of_hidden (h.spare k hk) hd), h.args, h.vars, h.spare⟩

/-- A slot is taken for a value without a name. -/
theorem withSlot (h : Written cx w tr s hidden c) :
    Written cx w tr (s.withSlot .reference) (s.body.nextSlot :: hidden) c := by
  have hlt : s.body.nextSlot < (s.withSlot .reference).body.nextSlot :=
    Nat.lt_add_of_pos_right (Nat.lt_of_lt_of_le Nat.zero_lt_one (Nat.le_max_right ..))
  have hspare (k : Nat) (hk : Spare cx tr s k) : Spare cx tr (s.withSlot .reference) k :=
    ⟨hk.1, Nat.lt_trans hk.2 hlt⟩
  refine ⟨h.performs.mono (fun _ _ hst => hst) hspare, Nat.le_trans h.args (Nat.le_of_lt hlt),
    fun v hv => Nat.lt_trans (h.vars v hv) hlt, fun k hk => ?_⟩
  rcases List.mem_cons.mp hk with rfl | hk
  · exact ⟨⟨h.args, fun v hv => Nat.ne_of_lt (h.vars v hv)⟩, hlt⟩
  · exact hspare k (h.spare k hk)

end Written

end Steps

/-! ### Statements -/

def StmtWrites (st : Stmt) : Prop :=
  ∀ {cx : BodyContext} {w : Walk} {tr : Trace} {s t : LowerState} {hidden : List Nat} {c d : Code},
    st.isLexical cx.file.scopes.parent? cx.scope = true → Ready cx st.scopes s → Aligned cx w tr s →
      Written cx w tr s hidden c → lowerStmt cx st s = .ok d t →
        Written cx (st.walk cx.file.scopes cx.params w) (tr ++ Trace.stmt cx st s) t hidden (c ++ d)

def StmtsWrite (body : List Stmt) : Prop :=
  ∀ {cx : BodyContext} {w : Walk} {tr : Trace} {s t : LowerState} {hidden : List Nat} {c d : Code},
    stmtsLexical cx.file.scopes.parent? cx.scope body = true → Ready cx (scopesOf body) s →
      Aligned cx w tr s →
      Written cx w tr s hidden c → lowerStmts cx [] body s = .ok d t →
        Written cx (walkStmts cx.file.scopes cx.params body w)
          (tr ++ Trace.stmts cx body s) t hidden (c ++ d)

/-- The subject is in one of the slots without a name. -/
def ArmsWrite (arms : List Arm) : Prop :=
  ∀ {cx : BodyContext} {w : Walk} {tr : Trace} {s t : LowerState} {hidden : List Nat} {c d : Code}
    {subject : Nat} {done : Label}, armsLexical cx.file.scopes.parent? cx.scope arms = true →
      Ready cx (scopesOfArms arms) s →
      Aligned cx w tr s → Written cx w tr s hidden c → subject ∈ hidden →
        lowerArms cx subject done arms s = .ok d t →
        Written cx (walkArms cx.file.scopes cx.params arms w)
          (tr ++ Trace.arms cx subject arms s) t hidden (c ++ d)

/-- A block that was entered, and in which `bound` was declared. -/
def BlockWrites (b : Block) : Prop :=
  ∀ {cx : BodyContext} {w : Walk} {tr : Trace} {s t : LowerState} {hidden : List Nat} {c d : Code}
    (bound : Option String), b.isLexical cx.file.scopes.parent? cx.scope = true →
      Ready (cx.inside b) (scopesOf b.body) s →
      Aligned (cx.inside b) (w.enter b.scope bound) tr s → Written (cx.inside b)
        (w.enter b.scope bound) tr s hidden c →
        lowerBlock cx b s = .ok d t →
          Written cx (b.walk cx.file.scopes cx.params bound w)
            (tr ++ Trace.block cx b s) t hidden (c ++ d)

section Statements

variable {cx : BodyContext} {w : Walk} {tr : Trace} {s t : LowerState} {hidden : List Nat}
  {c d : Code}

theorem blockWrites_of_stmts {b : Block} (ih : StmtsWrite b.body) : BlockWrites b := by
  intro cx w tr s t hidden c d bound hlex hready ha h hrun
  have hbody := ih (Block.isLexical_iff.mp hlex).2 hready ha h (lowerBlock_eq b ▸ hrun)
  obtain ⟨scope, body, span⟩ := b
  rw [Block.walk, Trace.block]
  exact ⟨hbody.performs, hbody.args, hbody.vars, hbody.spare⟩

/-- A block in which nothing is bound. -/
theorem BlockWrites.plain {b : Block} (ih : BlockWrites b)
    (hlex : b.isLexical cx.file.scopes.parent? cx.scope = true) (hready : Ready cx b.scopes s)
    (ha : Aligned cx w tr s) (h : Written cx w tr s hidden c) (hrun : lowerBlock cx b s = .ok d t) :
    Written cx (b.walk cx.file.scopes cx.params none w)
      (tr ++ Trace.block cx b s) t hidden (c ++ d) :=
  ih none hlex (hready.inside hlex (.of_eq rfl)) (ha.enter hready hlex) (h.enter b) hrun

theorem writes_expr (value : Expr) : StmtWrites (.expr value) := by
  intro cx w tr s t hidden c d _ _ ha h hrun
  rw [lowerStmt] at hrun
  obtain ⟨v, r, hv, hrun⟩ := bind_ok.mp hrun
  obtain ⟨rfl, rfl⟩ := pure_ok.mp hrun
  rw [Stmt.walk, Trace.stmt, Lowered.dropped, ← List.append_assoc]
  exact (h.lowerExpr ha hv).slotless (Code.isSlotless_of_simple (all_simple_popValue _))

theorem writes_ret (span : Span) (value : Expr) : StmtWrites (.ret span value) := by
  intro cx w tr s t hidden c d _ _ ha h hrun
  rw [Stmt.walk, Trace.stmt]
  cases stmtRun_of_ok hrun with
  | leave hret he =>
    obtain ⟨note, rfl⟩ : ∃ note, value = .empty note := by
      cases value <;> first | exact ⟨_, rfl⟩ | cases he
    have hempty : lowerExpr cx (.empty note) s = .ok Lowered.absent s := by
      rw [lowerExpr]
      rfl
    have hwritten := h.lowerExpr ha hempty
    rw [show c ++ Lowered.absent.code = c from List.append_nil c] at hwritten
    exact hwritten.slotless rfl
  | discard hret he hv =>
    rw [Lowered.dropped, ← List.append_assoc, ← List.append_assoc]
    exact ((h.lowerExpr ha hv).slotless
      (Code.isSlotless_of_simple (all_simple_popValue _))).slotless rfl
  | ret hret he hv hvv =>
    rw [← List.append_assoc, ← List.append_assoc]
    exact ((h.lowerExpr ha hv).slotless (Code.isSlotless_coerce _ _)).slotless rfl
  | nothing hn => cases hn

theorem writes_var (span : Span) (name : String) (init : Expr) :
    StmtWrites (.var span name init) := by
  intro cx w tr s t hidden c d _ _ ha h hrun
  cases stmtRun_of_ok hrun with
  | @var _ _ _ _ v s₁ type ht hvoid hv hvv =>
    have hinit : lowerAs cx init type s = .ok (v.code ++ coerce v.type type) s₁ :=
      bind_ok.mpr ⟨v, s₁, hv, Lowered.into_ok.mpr ⟨by simp [hvv], rfl, rfl⟩⟩
    have hdeclare : Lower.declareLocal cx.scope name type s₁ =
        .ok s₁.body.nextSlot (s₁.withLocal cx.scope name type) :=
      Lower.declareLocal_ok.mpr ⟨rfl, rfl⟩
    have hin := ha.of_lowerAs hinit
    rw [Stmt.walk, Trace.stmt, after_ok (varType_ok ht), if_neg (Bool.eq_false_iff.mp hvoid),
      after_ok hinit, after_ok hdeclare, ← Trace.append_assoc, ← List.append_assoc]
    exact (h.lowerAs ha hinit).declare hin name type
  | nothing hn => cases hn

theorem writes_ifThen {span : Span} {test : Expr} {body : Block} (ih : BlockWrites body) :
    StmtWrites (.ifElse span test body none) := by
  intro cx w tr s t hidden c d hlex hready ha h hrun
  rw [Stmt.isLexical] at hlex
  rw [Stmt.scopes] at hready
  rw [lowerStmt, bind_of_ok (newLabel_eq s)] at hrun
  obtain ⟨_, s₁, htest, hrun⟩ := bind_ok.mp hrun
  obtain ⟨_, s₂, hbody, hrun⟩ := bind_ok.mp hrun
  obtain ⟨rfl, rfl⟩ := pure_ok.mp hrun
  have ha := ha.congr (t := s.skip 1) rfl
  have hin := ha.of_lowerAs htest
  have hlocals := lowerAs_locals htest
  have htested := ((h.congr (t := s.skip 1) rfl).lowerAs ha htest).slotless
    (d := [.jump .ifeq s.body.nextLabel]) rfl
  have hblock := ih.plain hlex (hready.congr hlocals) hin htested hbody
  rw [Stmt.walk, Trace.stmt, after_ok htest, ← Trace.append_assoc]
  simp only [← List.append_assoc]
  exact hblock.slotless rfl

theorem writes_ifElse {span : Span} {test : Expr} {body : Block} {branch : Stmt}
    (ih : BlockWrites body) (ihb : StmtWrites branch) :
    StmtWrites (.ifElse span test body (some branch)) := by
  intro cx w tr s t hidden c d hlex hready ha h hrun
  rw [Stmt.isLexical, Bool.and_eq_true] at hlex
  rw [Stmt.scopes] at hready
  rw [lowerStmt, bind_of_ok (newLabel_eq s)] at hrun
  obtain ⟨_, s₁, htest, hrun⟩ := bind_ok.mp hrun
  obtain ⟨b, s₂, hbody, hrun⟩ := bind_ok.mp hrun
  rw [bind_of_ok (newLabel_eq s₂)] at hrun
  obtain ⟨_, s₃, hbranch, hrun⟩ := bind_ok.mp hrun
  obtain ⟨rfl, rfl⟩ := pure_ok.mp hrun
  have ha := ha.congr (t := s.skip 1) rfl
  have hin := ha.of_lowerAs htest
  have hlocals := lowerAs_locals htest
  have hready := hready.congr hlocals
  have htested := ((h.congr (t := s.skip 1) rfl).lowerAs ha htest).slotless
    (d := [.jump .ifeq s.body.nextLabel]) rfl
  have hblock := (ih.plain hlex.1 hready.left hin htested hbody).thenGoto s₂.body.nextLabel
  have hout := BlockAligns.plain (blockAligns body) hlex.1 hready.left hin
  rw [hbody] at hout
  have hrest := hready.next ((lowerBlock_alters body hbody).mono (List.subset_cons_self ..))
  have hjoined := hblock.slotless (d := [.mark s.body.nextLabel]) rfl
  have hboth := ihb hlex.2 (hrest.congr (t := s₂.skip 1) rfl) (hout.congr rfl)
    (hjoined.congr rfl) hbranch
  rw [Stmt.walk, Trace.stmt, after_ok htest, after_ok hbody, ← Trace.append_assoc,
    ← Trace.append_assoc]
  simp only [← List.append_assoc]
  refine hboth.slotless ?_
  split <;> rfl

theorem writes_whileLoop {span : Span} {test : Expr} {body : Block} (ih : BlockWrites body) :
    StmtWrites (.whileLoop span test body) := by
  intro cx w tr s t hidden c d hlex hready ha h hrun
  rw [Stmt.isLexical] at hlex
  rw [Stmt.scopes] at hready
  rw [lowerStmt, bind_of_ok (newLabel_eq s), bind_of_ok (newLabel_eq (s.skip 1)),
    LowerState.skip_skip] at hrun
  obtain ⟨_, s₁, htest, hrun⟩ := bind_ok.mp hrun
  obtain ⟨_, s₂, hbody, hrun⟩ := bind_ok.mp hrun
  obtain ⟨rfl, rfl⟩ := pure_ok.mp hrun
  have ha := ha.congr (t := s.skip 2) rfl
  have hin := ha.of_lowerAs htest
  have hlocals := lowerAs_locals htest
  have htested := ((h.congr (t := s.skip 2) rfl).slotless (d := [.mark s.body.nextLabel])
    rfl).lowerAs ha htest
  have hjump := htested.slotless (d := [.jump .ifeq (s.skip 1).body.nextLabel]) rfl
  have hblock := ih.plain hlex (hready.congr hlocals) hin hjump hbody
  rw [Stmt.walk, Trace.stmt, after_ok htest, ← Trace.append_assoc]
  simp only [← List.append_assoc]
  exact hblock.slotless rfl

theorem writes_block {body : Block} (ih : BlockWrites body) : StmtWrites (.block body) := by
  intro cx w tr s t hidden c d hlex hready ha h hrun
  rw [Stmt.isLexical] at hlex
  rw [Stmt.scopes] at hready
  rw [lowerStmt] at hrun
  rw [Stmt.walk, Trace.stmt]
  exact ih.plain hlex hready ha h hrun

theorem writes_exported {inner : Stmt} (ih : StmtWrites inner) : StmtWrites (.exported inner) := by
  intro cx w tr s t hidden c d hlex hready ha h hrun
  rw [Stmt.isLexical] at hlex
  rw [Stmt.scopes] at hready
  rw [lowerStmt] at hrun
  rw [Stmt.walk_exported, Trace.stmt_exported]
  exact ih hlex hready ha h hrun

theorem stmtsWrite_nil : StmtsWrite [] := by
  intro cx w tr s t hidden c d _ _ _ h hrun
  obtain ⟨rfl, rfl⟩ := lowerStmts_nil.mp hrun
  rw [walkStmts, Trace.stmts, Trace.append_nil, List.append_nil]
  exact h

theorem stmtsWrite_cons {first : Stmt} {rest : List Stmt} (ih : StmtWrites first)
    (ihr : StmtsWrite rest) : StmtsWrite (first :: rest) := by
  intro cx w tr s t hidden c d hlex hready ha h hrun
  rw [stmtsLexical, Bool.and_eq_true] at hlex
  rw [scopesOf] at hready
  obtain ⟨_, s₁, _, hfirst, hrest, rfl⟩ := lowerStmts_cons.mp hrun
  have hready := hready.congr (t := s.logged (.statement first.kind cx.frame.name)) rfl
  have ha := ha.congr (t := s.logged (.statement first.kind cx.frame.name)) rfl
  have hin := stmtAligns first hlex.1 hready.left ha
  rw [hfirst] at hin
  have hwritten := ih hlex.1 hready.left ha (h.congr rfl) hfirst
  rw [walkStmts, Trace.stmts, after_ok hfirst, ← Trace.append_assoc, ← List.append_assoc]
  exact ihr hlex.2 (hready.next (lowerStmt_alters first hfirst)) hin hwritten hrest

/-- The iterator is stored, asked and advanced. -/
theorem keepsTo_loop {source : Ty} {code : Code} (hit : iteratorCode source = some code)
    (iterator : Nat) (type : Ty) (start done : Label) :
    Code.KeepsTo iterator (code ++ [Code.storeSlot iterator .reference] ++ [Instr.mark start] ++
      [Code.loadSlot iterator .reference, Code.callInterface Library.iteratorHasNext,
        .jump .ifeq done, Code.loadSlot iterator .reference,
        Code.callInterface Library.iteratorNext] ++ coerce .object type) := by
  have hload : Code.KeepsTo iterator [Code.loadSlot iterator .reference] := .slot _
  have hask : Code.KeepsTo iterator [Code.callInterface Library.iteratorHasNext,
      .jump .ifeq done] := .of_slotless rfl
  have hnext : Code.KeepsTo iterator [Code.callInterface Library.iteratorNext] := .of_slotless rfl
  refine .append (.append (.append (.append ?_ (.slot _)) (.of_slotless rfl)) ?_) ?_
  · exact .of_slotless (Code.isSlotless_of_simple (all_simple_iteratorCode hit))
  · exact (hload.append hask).append (hload.append hnext)
  · exact .of_slotless (Code.isSlotless_coerce _ _)

theorem writes_forEach {span : Span} {binding : String} {iterable : Expr} {body : Block}
    (ih : BlockWrites body) : StmtWrites (.forEach span binding iterable body) := by
  intro cx w tr s t hidden c d hlex hready ha h hrun
  rw [Stmt.isLexical] at hlex
  rw [Stmt.scopes] at hready
  rw [lowerStmt] at hrun
  obtain ⟨⟨setup, iterator, element⟩, s₂, hopen, hrun⟩ := bind_ok.mp hrun
  rw [Stmt.walk, Trace.stmt, after_ok hopen]
  obtain ⟨source, s₁, code, type, hv, hit, -, rfl, rfl, rfl, rfl⟩ := openLoop_ok hopen
  dsimp only at hrun
  rw [bind_of_ok (newLabel_eq _), bind_of_ok (newLabel_eq _), LowerState.skip_skip] at hrun
  obtain ⟨b, s₃, hbody, hrun⟩ := bind_ok.mp hrun
  obtain ⟨rfl, rfl⟩ := pure_ok.mp hrun
  have hin := ha.lowerExpr iterable
  rw [hv] at hin
  have hready := hready.congr (lowerExpr_kept hv).locals
  -- All slots before that of the variable are the iterator's.
  have hentered := (hin.hide.enter hready hlex).congr (t := s₁.withSlot .reference) rfl
  have hloop := (h.lowerExpr ha hv).withSlot.hide List.mem_cons_self
    (keepsTo_loop hit s₁.body.nextSlot type s₁.body.nextLabel (s₁.body.nextLabel + 1))
  have hvar := (hloop.enter body).declare hentered binding type
  have halters : Alters s₁ (((s₁.withSlot .reference).withLocal body.scope binding type).skip 2)
      [body.scope] :=
    Alters.congr_left
      (.congr_right (.withLocal (s₁.withSlot .reference) body.scope binding type) rfl) rfl
  have hdeclared := hentered.declare
    (t := (s₁.withSlot .reference).withLocal body.scope binding type) rfl
  have hblock := ih (some binding) hlex (hready.inside hlex halters) (hdeclared.congr rfl)
    (hvar.congr rfl) hbody
  rw [← Trace.append_assoc, ← Trace.append_assoc, advanceLoop]
  simp only [← List.append_assoc] at hblock ⊢
  exact (hblock.slotless rfl).forget

theorem keepsTo_patternTest (subject : Nat) (next : Label) (pattern : Ty) :
    Code.KeepsTo subject (patternTest subject next pattern) := by
  have hload : Code.KeepsTo subject [Code.loadSlot subject .reference] := .slot _
  have hclass : Code.KeepsTo subject [Code.instanceOf pattern.className, .jump .ifeq next] :=
    .of_slotless rfl
  refine .append (hload.append hclass) ?_
  split
  · next element =>
    have htag : Code.KeepsTo subject [Code.checkcast Library.listWrapper,
        Code.callVirtual Library.wrapperName,
      Code.pushText element.name, Code.callVirtual Library.stringEquals, .jump .ifeq next] :=
        .of_slotless rfl
    exact hload.append htag
  · exact .of_slotless rfl

theorem keepsTo_boundSubject (subject : Nat) (pattern : Ty) :
    Code.KeepsTo subject (boundSubject subject pattern).code := by
  have hload : Code.KeepsTo subject [Code.loadSlot subject .reference] := .slot _
  have hcast : Code.KeepsTo subject [Code.checkcast pattern.className] := .of_slotless rfl
  have hcoerce : Code.KeepsTo subject (coerce .object pattern) :=
    .of_slotless (Code.isSlotless_coerce _ _)
  unfold boundSubject
  split
  · exact hload.append hcast
  · next kind _ =>
    split
    · exact (hload.append hcast).append
        (.of_slotless (Code.isSlotless_of_simple (all_simple_unboxUnchecked kind)))
    · exact hload.append hcoerce
  · exact hload.append hcoerce

theorem armsWrite_nil : ArmsWrite [] := by
  intro cx w tr s t hidden c d subject done _ _ _ h _ hrun
  rw [lowerArms, pure_ok] at hrun
  obtain ⟨rfl, rfl⟩ := hrun
  rw [walkArms, Trace.arms, Trace.append_nil, List.append_nil]
  exact h

/-- The body of an arm and the arms behind it, where the subject may have been bound. -/
theorem armsWrite_behind {body : Block} {rest : List Arm} {subject : Nat} {done next : Label}
    {bound : Option String} {tr' : Trace} {u r : LowerState} {a b : Code} (ih : BlockWrites body)
    (ihr : ArmsWrite rest) (hlex : body.isLexical cx.file.scopes.parent? cx.scope = true)
    (hlexr : armsLexical cx.file.scopes.parent? cx.scope rest = true)
    (hready : Ready cx (body.scopes ++ scopesOfArms rest) s) (ha : Aligned cx w tr s)
    (halters : Alters s t [body.scope])
    (hin : Aligned (cx.inside body) (w.enter body.scope bound) (tr ++ tr') t)
    (h : Written (cx.inside body) (w.enter body.scope bound) (tr ++ tr') t hidden c)
    (hsubject : subject ∈ hidden) (hbody : lowerBlock cx body t = .ok b u)
    (harms : lowerArms cx subject done rest u = .ok a r) :
    Written cx (walkArms cx.file.scopes cx.params rest (body.walk cx.file.scopes cx.params bound w))
      (tr ++ (tr' ++ (Trace.block cx body t ++ Trace.arms cx subject rest u))) r hidden
      (c ++ thenGoto b done ++ [Instr.mark next] ++ a) := by
  have hblock := ih bound hlex (hready.left.inside hlex halters) hin h hbody
  have hout := blockAligns body bound hlex hready.left ha halters hin
  rw [hbody] at hout
  have hbehind : Alters s u (cx.scope :: body.scopes) :=
    halters.trans (lowerBlock_alters body hbody)
      (by simp [Block.scopes_eq]) (List.subset_cons_self ..)
  rw [← Trace.append_assoc, ← Trace.append_assoc]
  exact ihr hlexr (hready.next hbehind) hout ((hblock.thenGoto done).slotless rfl) hsubject harms

theorem armsWrite_cons {arm : Arm} {rest : List Arm} (ih : BlockWrites arm.body)
    (ihr : ArmsWrite rest) : ArmsWrite (arm :: rest) := by
  intro cx w tr s t hidden c d subject done hlex hready ha h hsubject hrun
  obtain ⟨pattern, binding, body, span⟩ := arm
  rw [armsLexical, Bool.and_eq_true] at hlex
  rw [scopesOfArms] at hready
  rw [lowerArms, bind_of_ok (newLabel_eq s)] at hrun
  obtain ⟨type, s₁, htype, hrun⟩ := bind_ok.mp hrun
  obtain ⟨bound, s₂, hbound, hrun⟩ := bind_ok.mp hrun
  obtain ⟨b, s₃, hbody, hrun⟩ := bind_ok.mp hrun
  obtain ⟨a, s₄, harms, hrun⟩ := bind_ok.mp hrun
  obtain ⟨rfl, rfl⟩ := pure_ok.mp hrun
  rw [walkArms, Trace.arms, after_ok htype, after_ok hbound, after_ok hbody]
  obtain rfl := (BodyContext.resolveType_ok.mp htype).2
  have hready := hready.congr (t := s.skip 1) rfl
  have ha := ha.hide.congr (t := s.skip 1) rfl
  have hentered := ha.enter hready.left hlex.1
  have htest := keepsTo_patternTest subject s.body.nextLabel type
  rw [bindSubject_ok] at hbound
  simp only [← List.append_assoc]
  by_cases hb : binding.isEmpty
  · rw [if_pos hb] at hbound
    obtain ⟨rfl, rfl⟩ := hbound
    rw [if_pos hb, Arm.bound?, if_pos hb, List.append_nil]
    have htested := ((h.congr (t := s.skip 1) rfl).hide hsubject htest).enter body
    rw [← Trace.append_nil tr] at hentered htested
    exact armsWrite_behind ih ihr hlex.1 hlex.2 hready ha (.of_eq rfl) hentered htested
      hsubject hbody harms
  · rw [if_neg hb] at hbound
    obtain ⟨rfl, rfl⟩ := hbound
    rw [if_neg hb, Arm.bound?, if_neg hb]
    have hbind := htest.append (keepsTo_boundSubject subject type)
    have htested := ((h.congr (t := s.skip 1) rfl).hide hsubject hbind).enter body
    have hvar := htested.declare hentered binding (boundSubject subject type).type
    simp only [← List.append_assoc] at hvar ⊢
    exact armsWrite_behind ih ihr hlex.1 hlex.2 hready ha (.withLocal ..)
      (hentered.declare rfl) hvar hsubject hbody harms

theorem writes_matchType {span : Span} {subject : Expr} {arms : List Arm} (ih : ArmsWrite arms) :
    StmtWrites (.matchType span subject arms) := by
  intro cx w tr s t hidden c d hlex hready ha h hrun
  rw [Stmt.isLexical] at hlex
  rw [Stmt.scopes] at hready
  rw [lowerStmt] at hrun
  obtain ⟨⟨setup, slot⟩, s₂, hopen, hrun⟩ := bind_ok.mp hrun
  rw [Stmt.walk, Trace.stmt, after_ok hopen]
  obtain ⟨v, s₁, hv, hvv, rfl, rfl, rfl⟩ := openMatch_ok hopen
  dsimp only at hrun
  rw [bind_of_ok (newLabel_eq _)] at hrun
  obtain ⟨a, s₃, harms, hrun⟩ := bind_ok.mp hrun
  obtain ⟨rfl, rfl⟩ := pure_ok.mp hrun
  have hin := ha.lowerExpr subject
  rw [hv] at hin
  have hready := hready.congr (lowerExpr_kept hv).locals
  have hstore : Code.KeepsTo s₁.body.nextSlot
      (coerce v.type .object ++ [Code.storeSlot s₁.body.nextSlot .reference]) :=
    .append (.of_slotless (Code.isSlotless_coerce _ _)) (.slot _)
  have hopened := (h.lowerExpr ha hv).withSlot.hide List.mem_cons_self hstore
  have hready := hready.congr (t := (s₁.withSlot .reference).skip 1) rfl
  have hall := ih hlex hready (hin.hide.congr rfl) (hopened.congr rfl) List.mem_cons_self harms
  rw [← Trace.append_assoc]
  simp only [← List.append_assoc] at hall ⊢
  exact (hall.slotless rfl).forget

/-- Statements that concern other bodies, or none. -/
theorem writes_nothing {st : Stmt} (hwalk : ∀ scopes params w, st.walk scopes params w = w)
    (htrace : ∀ cx s, Trace.stmt cx st s = {}) (hleaves : st.LeavesBody) : StmtWrites st := by
  intro cx w tr s t hidden c d _ _ _ h hrun
  obtain ⟨rfl, hbody⟩ := hleaves hrun
  rw [hwalk, htrace, Trace.append_nil, List.append_nil]
  exact h.congr (by rw [hbody])

mutual

theorem stmtWrites : ∀ st : Stmt, StmtWrites st
  | .expr value => writes_expr value
  | .var span name init => writes_var span name init
  | .ret span value => writes_ret span value
  | .ifElse _ _ body none => writes_ifThen (blockWrites body)
  | .ifElse _ _ body (some branch) => writes_ifElse (blockWrites body) (stmtWrites branch)
  | .whileLoop _ _ body => writes_whileLoop (blockWrites body)
  | .forEach _ _ _ body => writes_forEach (blockWrites body)
  | .matchType _ _ arms => writes_matchType (armsWrite arms)
  | .block body => writes_block (blockWrites body)
  | .exported inner => writes_exported (stmtWrites inner)
  | .function decl => writes_nothing (fun _ _ _ => rfl) (fun _ _ => rfl) (function_leavesBody decl)
  | .struct span name => writes_nothing
      (fun _ _ _ => rfl) (fun _ _ => rfl) (struct_leavesBody span name)
  | .use _ _ | .typeAlias _ _ | .unionType _ _ | .enum _ _ | .parameter _ _ =>
    writes_nothing (fun _ _ _ => rfl) (fun _ _ => rfl) fun h => by
      cases stmtRun_of_ok h
      exact ⟨rfl, rfl⟩

theorem blockWrites : ∀ b : Block, BlockWrites b
  | ⟨_, body, _⟩ => blockWrites_of_stmts (stmtsWrite body)

theorem stmtsWrite : ∀ body : List Stmt, StmtsWrite body
  | [] => stmtsWrite_nil
  | first :: rest => stmtsWrite_cons (stmtWrites first) (stmtsWrite rest)

theorem armsWrite : ∀ arms : List Arm, ArmsWrite arms
  | [] => armsWrite_nil
  | ⟨_, _, body, _⟩ :: rest => armsWrite_cons (blockWrites body) (armsWrite rest)

end

end Statements

/-! ### Bodies -/

section Bodies

variable {file : FileContext} {plan : MethodPlan} {frame : Frame} {b : Block}
  {s t : LowerState} {n : Nat}

/-- The trace of a body that becomes a method. -/
def Trace.body (file : FileContext) (plan : MethodPlan) (b : Block) (s : LowerState) : Trace :=
  after (Lower.startFrame file .publicStatic plan.name plan.descriptor) s {} fun frame s =>
    Trace.stmts (plan.context file frame b.scope) b.body (plan.opened frame s)

theorem isolated_error {α : Type} {start : BodyState} {act : Lower α} {e : CodegenError}
    (h : act { s with body := start } = .error e t) :
    Lower.isolated start act s = .error e { t with body := s.body } := by
  unfold Lower.isolated
  rw [h]

/-- A body that becomes no method has a bad descriptor, or a statement that fails. -/
theorem lowerBody_error {e : CodegenError} (hnew : plan.emitted s = false)
    (h : lowerBody file plan b s = .error e t) :
    (∃ e, Frame.start .publicStatic plan.name plan.descriptor = .error e) ∨
      ∃ frame u, Frame.start .publicStatic plan.name plan.descriptor = .ok frame ∧
        lowerStmts (plan.context file frame b.scope) [] b.body (plan.opened frame s) =
          .error e u := by
  cases hframe : Frame.start .publicStatic plan.name plan.descriptor with
  | error e => exact .inl ⟨e, rfl⟩
  | ok frame =>
    refine .inr ⟨frame, ?_⟩
    cases hrun : lowerStmts (plan.context file frame b.scope) [] b.body (plan.opened frame s) with
    | ok code u =>
      rw [(lowerBody_new hnew).mpr ⟨frame, code, u, hframe, hrun, rfl⟩] at h
      cases h
    | error e' u =>
      obtain ⟨scope, body, span⟩ := b
      have hlog : Lower.log (.opened plan.name plan.descriptor) s =
          .ok () (s.logged (.opened plan.name plan.descriptor)) := rfl
      have hbody : Lower.isolated { nextSlot := frame.nextSlot }
        (lowerStmts (plan.context file frame scope) [] body)
          (s.logged (.opened plan.name plan.descriptor)) = .error e' { u with body := s.body } :=
            isolated_error hrun
      rw [lowerBody, bind_of_ok (isEmitted_of_new hnew), if_neg Bool.false_ne_true, bind_of_ok hlog,
        bind_of_ok (startFrame_ok.mpr ⟨hframe, rfl⟩)] at h
      cases (bind_of_error hbody).symm.trans h
      exact ⟨u, rfl, rfl⟩

theorem ready_body (hdepth : file.scopes.Depth b.scope n)
    (hlex : stmtsLexical file.scopes.parent? b.scope b.body = true) (hscopes : b.scopes.Nodup) :
    Ready (plan.context file frame b.scope) (scopesOf b.body) (plan.opened frame s) where
  depth := ⟨n, hdepth⟩
  nodup := (List.nodup_cons.mp (b.scopes_eq ▸ hscopes)).2
  unused _ _ _ := rfl
  apart id hid := by
    obtain ⟨m, hm, hid⟩ := stmts_deeper hdepth hlex id hid
    exact hdepth.notMem_chain hid hm

theorem aligned_body (hdepth : file.scopes.Depth b.scope n) :
    Aligned (plan.context file frame b.scope) { blocks := [⟨b.scope, []⟩] } {}
      (plan.opened frame s) := by
  obtain ⟨outer, hchain, hnew⟩ := hdepth.chain_eq_cons
  refine ⟨⟨rfl, .nil, nofun⟩, ?_⟩
  show Tracks b.scope [] [] _ (file.scopes.chain b.scope)
  rw [hchain]
  exact .body (b := ⟨b.scope, []⟩) rfl (.empty fun _ => rfl) hnew fun _ _ _ => rfl

theorem written_body :
    Written (plan.context file frame b.scope) { blocks := [⟨b.scope, []⟩] } {}
      (plan.opened frame s) [] [] :=
  ⟨.nil, Nat.le_refl _, nofun, nofun⟩

/-- What secures the end of a method uses no slot. -/
theorem performs_method {α : Type} {R : α → Storage → Prop} {H : Nat → Prop} {us : List (SlotUse α)}
    {code : Code} (h : Performs frame R H us code) (last : Nat) :
    Performs frame R H us (plan.method frame last code).code := by
  have hclosed : Performs frame R H us (plan.closed frame code) := by
    unfold MethodPlan.closed
    split
    · exact h.then_slotless rfl
    · exact h
  unfold MethodPlan.method Frame.finish
  dsimp only
  split
  · exact hclosed.then_slotless rfl
  · exact hclosed

/-- Lexical scoping. Let the blocks of a function body have different scopes, each a child of the
one in force where the block stands, and let the way outward from the body end. If the body becomes
a method, every name that is read or written is found where the text says it is, and the code of the
method uses the slots of the variables and parameters that were found, in order, and others only if
they are no variable's and no parameter's. If lowering fails, this holds up to the failure; a name
that means nothing is the last that is looked up, and the error is that of the name. -/
theorem lowerBody_resolves_lexically (hdepth : file.scopes.Depth b.scope n)
    (hlex : stmtsLexical file.scopes.parent? b.scope b.body = true) (hscopes : b.scopes.Nodup)
    (hnew : plan.emitted s = false) :
    (∀ t, lowerBody file plan b s = .ok () t →
      Complete (b.resolved file.scopes plan.params) (Trace.body file plan b s) ∧
      ∃ frame m, Frame.start .publicStatic plan.name plan.descriptor = .ok frame ∧
        t.file.methods.getLast? = some m ∧
        Performs frame (Stored (Trace.body file plan b s).vars)
          (Unnamed frame (Trace.body file plan b s).vars)
          (b.resolved file.scopes plan.params).slotUses m.code) ∧
    ∀ e t, lowerBody file plan b s = .error e t →
      Cut (b.resolved file.scopes plan.params) (Trace.body file plan b s) e := by
  have hrun (frame : Frame) : Reached (plan.context file frame b.scope)
      (b.resolved file.scopes plan.params)
      (Trace.stmts (plan.context file frame b.scope) b.body (plan.opened frame s))
      (lowerStmts (plan.context file frame b.scope) [] b.body (plan.opened frame s)) :=
    stmtsAlign b.body [] hlex (ready_body hdepth hlex hscopes) (aligned_body hdepth)
  constructor
  · intro t h
    obtain ⟨frame, code, u, hframe, hbody, rfl⟩ := (lowerBody_new hnew).mp h
    have hreached := hrun frame
    rw [hbody] at hreached
    have hwritten := stmtsWrite b.body hlex (ready_body hdepth hlex hscopes)
      (aligned_body hdepth) written_body hbody
    rw [Trace.body, after_ok (startFrame_ok.mpr ⟨hframe, rfl⟩)]
    refine ⟨hreached.toComplete, frame, plan.method frame u.body.nextSlot code, hframe,
      List.getLast?_concat, ?_⟩
    exact performs_method (hwritten.performs.mono (fun _ _ hst => hst) fun _ hk => hk.1) _
  · intro e t h
    rcases lowerBody_error hnew h with ⟨e', hframe⟩ | ⟨frame, u, hframe, hbody⟩
    · have hstart : Lower.startFrame file .publicStatic plan.name plan.descriptor s =
          .error (.classFormat file.unitName e'.message) s := by
        rw [Lower.startFrame, hframe]
        rfl
      rw [Trace.body, after, hstart]
      exact ⟨List.nil_prefix, ⟨[], List.nil_prefix, .nil⟩, .of_found (List.forall_mem_nil _)⟩
    · have hreached := hrun frame
      rw [hbody] at hreached
      rw [Trace.body, after_ok (startFrame_ok.mpr ⟨hframe, rfl⟩)]
      exact hreached

end Bodies

/-- The error of a run, if it failed. -/
def failure? {ε σ α : Type} : EStateM.Result ε σ α → Option ε
  | .error e _ => some e
  | .ok _ _ => none

theorem exists_ok_of_failure? {ε σ : Type} {r : EStateM.Result ε σ Unit} (h : failure? r = none) :
    ∃ t, r = .ok () t := by
  cases r with
  | ok a t => exact ⟨t, rfl⟩
  | error e t => cases h

theorem exists_error_of_failure? {ε σ α : Type} {r : EStateM.Result ε σ α} {e : ε}
    (h : failure? r = some e) : ∃ t, r = .error e t := by
  cases r with
  | ok a t => cases h
  | error e t =>
    cases h
    exact ⟨t, rfl⟩

/-- Scope one is that of the body, with blocks of scopes two, three and four in it. -/
def shadowFile : FileContext where
  unitName := "sample"
  fileName := "sample.ix"
  scopes := ⟨#[{ parent := none }, { parent := some 0, vars := [("x", .int), ("y", .int)] },
    { parent := some 1, vars := [("x", .int), ("z", .int)] },
    { parent := some 1, vars := [("x", .int)] }, { parent := some 1 }]⟩

def shadowPlan : MethodPlan where
  name := "_f"
  descriptor := "(I)V"
  params := [("x", .int)]
  ret := .void

/-- `f(x) { var y = x; { var x = y; var z = x; x++ }; match x { x: int { y = x } } }` -/
def shadowBody : Block where
  scope := 1
  body := [
    .var {} "y" (.ident ⟨.int, {}⟩ "x"),
    .block ⟨2, [.var {} "x" (.ident ⟨.int, {}⟩ "y"), .var {} "z" (.ident ⟨.int, {}⟩ "x"),
      .expr (.step ⟨.void, {}⟩ .increment (.ident ⟨.int, {}⟩ "x"))], {}⟩,
    .matchType {} (.ident ⟨.int, {}⟩ "x") [⟨.int, "x",
      ⟨3, [.expr (.assign ⟨.void, {}⟩ (.ident ⟨.int, {}⟩ "y") (.ident ⟨.int, {}⟩ "x"))], {}⟩, {}⟩]]
  span := {}

/-- With `{ z }` behind. -/
def strayBody : Block := { shadowBody with
  body := shadowBody.body ++ [.block ⟨4, [.expr (.ident ⟨.int, ⟨7, 8⟩⟩ "z")], {}⟩] }

/-- In a block `x` is the variable of the block, and behind it the parameter; `z` is not to be found
there. -/
theorem lowerBody_resolves_lexically_shadow :
    (shadowBody.resolved shadowFile.scopes shadowPlan.params).slotUses =
      [.load (some (.param 0 .int)), .store (some (.var 0)), .load (some (.var 0)),
        .store (some (.var 1)), .load (some (.var 1)), .store (some (.var 2)),
        .load (some (.var 1)), .store (some (.var 1)), .load (some (.param 0 .int)), .hidden,
        .hidden, .store (some (.var 3)), .load (some (.var 3)), .store (some (.var 0))] ∧
    (∃ t frame m, lowerBody shadowFile shadowPlan shadowBody {} = .ok () t ∧
      Complete (shadowBody.resolved shadowFile.scopes shadowPlan.params)
        (Trace.body shadowFile shadowPlan shadowBody {}) ∧
      t.file.methods.getLast? = some m ∧
      Performs frame (Stored (Trace.body shadowFile shadowPlan shadowBody {}).vars)
        (Unnamed frame (Trace.body shadowFile shadowPlan shadowBody {}).vars)
        (shadowBody.resolved shadowFile.scopes shadowPlan.params).slotUses m.code) ∧
    (strayBody.resolved shadowFile.scopes shadowPlan.params).uses.map ResolvedUse.target =
      [some (.param 0 .int), some (.var 0), some (.var 1), some (.var 1), some (.param 0 .int),
        some (.var 0), some (.var 3), none] ∧
    ∃ t, lowerBody shadowFile shadowPlan strayBody {} = .error (.unknownIdentifier "z" ⟨7, 8⟩) t ∧
      Cut (strayBody.resolved shadowFile.scopes shadowPlan.params)
        (Trace.body shadowFile shadowPlan strayBody {})
        (.unknownIdentifier "z" ⟨7, 8⟩) := by
  have hdepth : shadowFile.scopes.Depth 1 1 := .child rfl (.root rfl)
  have hdone : failure? (lowerBody shadowFile shadowPlan shadowBody {}) = none := by
    decide +kernel
  have hfailed : failure? (lowerBody shadowFile shadowPlan strayBody {}) =
      some (.unknownIdentifier "z" ⟨7, 8⟩) := by decide +kernel
  obtain ⟨t, ht⟩ := exists_ok_of_failure? hdone
  obtain ⟨u, hu⟩ := exists_error_of_failure? hfailed
  obtain ⟨hcomplete, frame, m, -, hm, hperforms⟩ :=
    (lowerBody_resolves_lexically (b := shadowBody) hdepth (by decide) (by decide) rfl).1 t ht
  refine ⟨by decide +kernel, ⟨t, frame, m, ht, hcomplete, hm, hperforms⟩, by decide +kernel,
    u, hu, ?_⟩
  exact (lowerBody_resolves_lexically (b := strayBody) hdepth (by decide) (by decide) rfl).2 _ u hu

end ClassGen.Scoping
