import ClassGen.Proofs.Fragment
import ClassGen.Proofs.StackKinds.Expr

/-! How far lowered code reaches: the slots that expressions access are those of variables in sight,
and their jumps stay inside their own code. -/

namespace ClassGen

open Run

/-- Neither accesses a slot nor jumps. -/
def Instr.isSimple : Instr → Bool
  | slot _ _ | jump _ _ => false
  | _ => true

namespace Code

/-- The slots of the fragment are accessed as `A` allows, and its jumps go to its own labels or to
`exits`. -/
structure Confined (A : Opcode → UInt16 → Prop) (exits : List Label) (c : Code) : Prop where
  slots : ∀ op n, .slot op n ∈ c → A op n
  jumps : ∀ op l, .jump op l ∈ c → .mark l ∈ c ∨ l ∈ exits

namespace Confined

variable {A B : Opcode → UInt16 → Prop} {exits more : List Label} {a b c : Code} {op : Opcode}
  {n : UInt16} {l : Label}

theorem of_simple (h : c.all Instr.isSimple = true) : Confined A exits c where
  slots _ _ hmem := nomatch List.all_eq_true.mp h _ hmem
  jumps _ _ hmem := nomatch List.all_eq_true.mp h _ hmem

theorem append (ha : Confined A exits a) (hb : Confined A exits b) : Confined A exits (a ++ b) where
  slots op n hmem := (List.mem_append.mp hmem).elim (ha.slots op n) (hb.slots op n)
  jumps op l hmem := by
    rcases List.mem_append.mp hmem with hmem | hmem
    · exact (ha.jumps op l hmem).imp_left (List.mem_append_left b)
    · exact (hb.jumps op l hmem).imp_left (List.mem_append_right a)

theorem slot (h : A op n) : Confined A exits [.slot op n] := by
  refine ⟨fun op' n' hmem => ?_, fun op' l hmem => ?_⟩
  · cases List.mem_singleton.mp hmem
    exact h
  · cases List.mem_singleton.mp hmem

theorem jump (h : l ∈ exits) : Confined A exits [.jump op l] := by
  refine ⟨fun op' n hmem => ?_, fun op' l' hmem => ?_⟩
  · cases List.mem_singleton.mp hmem
  · cases List.mem_singleton.mp hmem
    exact .inr h

theorem mono (h : Confined A exits c) (hA : ∀ op n, A op n → B op n) (hsub : exits ⊆ more) :
    Confined B more c :=
  ⟨fun op n hmem => hA op n (h.slots op n hmem), fun op l hmem =>
    (h.jumps op l hmem).imp_right fun hl => hsub hl⟩

theorem allow (h : Confined A exits c) (hA : ∀ op n, A op n → B op n) : Confined B exits c :=
  h.mono hA (List.Subset.refl _)

/-- Exits that the fragment places itself are none. -/
theorem exiting (h : Confined A exits c) (hexits : ∀ l ∈ exits, .mark l ∈ c ∨ l ∈ more) :
    Confined A more c :=
  ⟨h.slots, fun op l hmem => (h.jumps op l hmem).elim .inl (hexits l)⟩

/-- With exits that it does not need. -/
theorem loosen (h : Confined A [] c) : Confined A exits c :=
  h.mono (fun _ _ hA => hA) (List.nil_subset _)

theorem close (h : Confined A exits c) (hmarks : ∀ l ∈ exits, .mark l ∈ c) : Confined A [] c :=
  h.exiting fun l hl => .inl (hmarks l hl)

end Confined

end Code

/-! ### Pieces that are simple -/

section Simple

open Code

@[simp] theorem all_simple_unboxUnchecked (k : Primitive) :
    (unboxUnchecked k).all Instr.isSimple = true := by
  cases k <;> rfl

@[simp] theorem all_simple_coerce (a b : Ty) : (coerce a b).all Instr.isSimple = true := by
  unfold coerce
  split
  · next given wanted _ _ => cases given.widenOp? wanted <;> rfl
  · next given _ _ => cases given <;> rfl
  · next wanted _ _ => cases wanted <;> rfl
  · split_ifs <;> rfl
  · rfl

@[simp] theorem all_simple_arithmeticCode (k : Primitive) (x : Arithmetic) :
    (arithmeticCode k x).all Instr.isSimple = true := by
  unfold arithmeticCode
  cases k.arithmeticOp? x <;> rfl

@[simp] theorem all_simple_popValue (r : Representation) :
    (popValue r).all Instr.isSimple = true := by
  unfold popValue
  split <;> rfl

theorem all_simple_iteratorCode {t : Ty} {c : Code} (h : iteratorCode t = some c) :
    c.all Instr.isSimple = true := by
  unfold iteratorCode at h
  split at h
  · cases h; rfl
  · cases h; rfl
  · cases h; rfl
  · split_ifs at h <;> cases h <;> rfl
  · cases h

theorem all_simple_xorPlan {lt rt : Ty} {plan : OperatorPlan}
    (h : BinaryOp.xorPlan? lt rt = some plan) : plan.code.all Instr.isSimple = true := by
  unfold BinaryOp.xorPlan? at h
  split at h <;> cases h <;> rfl

theorem all_simple_arithmeticPlan {op : BinaryOp} {lt rt : Ty} {plan : OperatorPlan}
    (h : op.arithmeticPlan? lt rt = some plan) : plan.code.all Instr.isSimple = true := by
  simp only [BinaryOp.arithmeticPlan?, Option.bind_eq_bind, Option.bind_eq_some_iff,
    Option.pure_def, Option.some.injEq] at h
  obtain ⟨_, -, _, -, _, -, _, -, rfl⟩ := h
  rfl

end Simple

namespace Code.Confined

variable {A : Opcode → UInt16 → Prop} {exits : List Label} {c l r : Code} {v : Lowered}

theorem coerced (h : Confined A exits v.code) (t : Ty) :
    Confined A exits (v.code ++ coerce v.type t) :=
  h.append (.of_simple (all_simple_coerce v.type t))

theorem dropped (h : Confined A exits v.code) : Confined A exits v.dropped :=
  h.append (.of_simple (all_simple_popValue _))

/-- The two jumps go to the label that decides, the third to the end. -/
theorem shortCircuit {x : Bool} {decided done : Label} (hl : Confined A [] l)
    (hr : Confined A [] r) : Confined A [] (Code.shortCircuit x decided done l r) := by
  have hskip {op : Opcode} : Confined A [decided, done] [.jump op decided] :=
    .jump List.mem_cons_self
  have hend {op : Opcode} : Confined A [decided, done]
      [.jump op decided, pushBool x, Code.goto done, .mark decided, pushBool (!x), .mark done] :=
    hskip.append ((Confined.of_simple (c := [pushBool x]) rfl).append
      ((Confined.jump (l := done) (by simp)).append (.of_simple rfl)))
  refine (((hl.loosen.append hskip).append hr.loosen).append hend).close fun l hl => ?_
  rcases List.mem_pair.mp hl with rfl | rfl <;> simp

theorem truthValue {test : Code} {onFalse done : Label} (h : Confined A [onFalse] test) :
    Confined A [] (test ++ BinaryOp.truthValue onFalse done) := by
  have hend : Confined A [onFalse, done] (BinaryOp.truthValue onFalse done) :=
    (Confined.of_simple (c := [pushBool true]) rfl).append
      ((Confined.jump (l := done) (by simp)).append (.of_simple rfl))
  refine ((h.mono (fun _ _ hA => hA) (by simp)).append hend).close fun l hl => ?_
  rcases List.mem_pair.mp hl with rfl | rfl <;> simp [BinaryOp.truthValue]

theorem comparison {op : BinaryOp} {lt rt common : Ty} {onFalse : Label} {test : Code}
    (h : op.comparison? lt rt onFalse = some (common, test)) : Confined A [onFalse] test := by
  have hjump {code : Opcode} : Confined A [onFalse] [.jump code onFalse] :=
    .jump (List.mem_singleton_self _)
  unfold BinaryOp.comparison? at h
  split at h
  · cases h
    unfold BinaryOp.numericTest
    split
    · exact (Confined.of_simple (c := [_]) rfl).append hjump
    · exact (Confined.of_simple (c := [_]) rfl).append hjump
    · exact hjump
  · split_ifs at h <;> cases h
    · exact hjump
    · exact (Confined.of_simple (c := [_]) rfl).append hjump

theorem plan {op : BinaryOp} {lt rt : Ty} {plan : OperatorPlan} {s t : LowerState}
    (h : op.plan? lt rt s = .ok (some plan) t) : Confined A [] plan.code := by
  cases hrel : op.isRelational with
  | true =>
    obtain ⟨hplan, -⟩ := (BinaryOp.plan?_ok_relational hrel).mp h
    obtain ⟨⟨common, test⟩, htest, rfl⟩ := Option.map_eq_some_iff.mp hplan
    exact (comparison htest).truthValue
  | false =>
    by_cases hx : op = .xor
    · subst hx
      exact .of_simple (all_simple_xorPlan (BinaryOp.plan?_ok_xor.mp h).1)
    · exact .of_simple (all_simple_arithmeticPlan ((BinaryOp.plan?_ok_arithmetic hrel hx).mp h).1)

variable {cx : BodyContext} {s t : LowerState}

theorem loadFields {fields : List String} {span : Span} {owner : Lowered}
    (hc : Confined A exits owner.code) (h : cx.loadFields owner span fields s = .ok v t) :
    Confined A exits v.code := by
  induction fields generalizing s owner with
  | nil =>
    obtain ⟨rfl, -⟩ := pure_ok.mp h
    exact hc
  | cons field rest ih =>
    simp only [BodyContext.loadFields, BodyContext.loadField, bind_ok, pure_ok] at h
    obtain ⟨_, _, ⟨_, _, -, rfl, rfl⟩, h⟩ := h
    exact ih ((hc.append (.of_simple rfl)).append (.of_simple (all_simple_coerce _ _))) h

theorem receiver {r : Lowered} {note : Note} (hc : Confined A exits v.code)
    (h : cx.receiver v note s = .ok r t) : Confined A exits r.code := by
  obtain ⟨-, rfl | ⟨_, _, _, -, rfl⟩ | ⟨_, _, -, rfl⟩⟩ := BodyContext.receiver_ok h
  · exact hc
  · exact hc
  · exact hc.coerced _

end Code.Confined

/-! ### Variables in sight -/

namespace BodyContext

/-- The access is to a local of a scope around, or to an argument. -/
inductive InSight (cx : BodyContext) (locals : List ((ScopeId × String) × LocalVar)) :
    Opcode → UInt16 → Prop
  | load {id name l} (hid : id ∈ cx.file.scopes.chain cx.scope)
      (hl : locals.lookup (id, name) = some l) :
    InSight cx locals l.type.representation.loadOp l.slot.toUInt16
  | store {id name l} (hid : id ∈ cx.file.scopes.chain cx.scope)
      (hl : locals.lookup (id, name) = some l) :
    InSight cx locals l.type.representation.storeOp l.slot.toUInt16
  | loadArg {a} (ha : a ∈ cx.frame.args) : InSight cx locals a.loadOp a.slot.toUInt16
  | storeArg {a} (ha : a ∈ cx.frame.args) : InSight cx locals a.storeOp a.slot.toUInt16

variable {cx : BodyContext} {locals : List ((ScopeId × String) × LocalVar)} {name : String}
  {st : Storage}

/-- Storage is a local of one of the scopes, or a parameter. -/
theorem storageIn?_cases {ids : List ScopeId} (h : cx.storageIn? locals name ids = some st) :
    (∃ id ∈ ids, ∃ l, locals.lookup (id, name) = some l ∧ st = .slot l.slot l.type) ∨ ∃ index t,
    st = .param index t := by
  induction ids with
  | nil => cases h
  | cons id outer ih =>
    rw [storageIn?] at h
    split at h
    · next l hl =>
      cases h
      exact .inl ⟨id, List.mem_cons_self, l, hl, rfl⟩
    · next p hl hp =>
      cases h
      split_ifs at hp
      obtain ⟨⟨index, t⟩, -, rfl⟩ := Option.map_eq_some_iff.mp hp
      exact .inr ⟨index, t, rfl⟩
    · split_ifs at h
      refine (ih h).imp_left ?_
      rintro ⟨other, hmem, hrest⟩
      exact ⟨other, List.mem_cons_of_mem _ hmem, hrest⟩

theorem confined_arg (cx : BodyContext) (index : Nat) (exits : List Label) :
    Code.Confined (cx.InSight locals) exits (cx.frame.loadArg index) ∧
      Code.Confined (cx.InSight locals) exits (cx.frame.storeArg index) := by
  unfold Frame.loadArg Frame.storeArg
  cases ha : cx.frame.args[index]? with
  | none => exact ⟨.of_simple rfl, .of_simple rfl⟩
  | some a =>
    have hmem : a ∈ cx.frame.args := List.mem_of_getElem? ha
    exact ⟨.slot (.loadArg hmem), .slot (.storeArg hmem)⟩

/-- Accesses of a variable that was found are in sight. -/
theorem confined_storage {s t : LowerState} {span : Span} (h : cx.storageOf name span s = .ok st t)
    (exits : List Label) :
    Code.Confined (cx.InSight s.body.locals) exits (st.load cx.frame) ∧
      Code.Confined (cx.InSight s.body.locals) exits (st.store cx.frame) := by
  obtain ⟨-, hst, -⟩ := storageOf_ok.mp h
  obtain ⟨id, hid, l, hl, rfl⟩ | ⟨index, t, rfl⟩ := storageIn?_cases hst
  · exact ⟨.slot (.load hid hl), .slot (.store hid hl)⟩
  · exact confined_arg cx index exits

end BodyContext

variable {cx : BodyContext}

mutual

/-- An expression accesses variables in sight and keeps its jumps to itself. -/
theorem lowerExpr_confined : ∀ {e : Expr} {s t : LowerState} {v : Lowered},
    lowerExpr cx e s = .ok v t →
    Code.Confined (cx.InSight s.body.locals) [] v.code := by
  intro e s t v h
  cases exprRun_of_ok h with
  | literal => exact .of_simple (by cases ‹Literal› <;> rfl)
  | ident hst => exact (BodyContext.confined_storage hst []).1
  | concat hs hop hl hlv hr hrv =>
    have hright := lowerExpr_confined hr
    rw [(lowerExpr_kept hl).locals] at hright
    exact (((Code.Confined.of_simple rfl).append
      ((lowerExpr_confined hl).append (.of_simple rfl))).append
      (hright.append (.of_simple rfl))).append (.of_simple rfl)
  | logic hop hl hlv hr hrv =>
    have hright := lowerExpr_confined hr
    rw [(lowerExpr_kept hl).locals] at hright
    exact .shortCircuit ((lowerExpr_confined hl).coerced .boolean) (hright.coerced .boolean)
  | planned hlt hrt hplan hl hlv hr hrv =>
    have hleft := lowerExpr_confined hl
    have hright := lowerExpr_confined hr
    rw [(lowerExpr_kept hl).locals, (plan_kept hplan).locals] at hright
    rw [(plan_kept hplan).locals] at hleft
    exact ((hleft.coerced _).append (hright.coerced _)).append (.plan hplan)
  | assignName hst hv hvv =>
    exact ((lowerExpr_confined hv).coerced _).append (BodyContext.confined_storage hst []).2
  | assignField hlast hr hr' howner hfield hv hvv =>
    have hvalue := lowerExpr_confined hv
    rw [(lowerExpr_kept hr).locals] at hvalue
    exact ((((lowerExpr_confined hr).receiver hr').loadFields howner).append
      (hvalue.coerced _)).append (.of_simple rfl)
  | callExternal hc harity hlink hargs => exact (lowerArgs_confined hargs).append (.of_simple rfl)
  | callUser hc harity hlink htypes hspec hargs hunit =>
      exact (lowerArgs_confined hargs).append (.of_simple rfl)
  | construct hc harity hargs hn =>
    exact ((Code.Confined.of_simple rfl).append (lowerArgs_confined hargs)).append (.of_simple rfl)
  | property hr hr' hv => exact ((lowerExpr_confined hr).receiver hr').loadFields hv
  | step hst hk =>
    rename_i kind
    obtain ⟨hload, hstore⟩ := BodyContext.confined_storage hst []
    refine ((hload.append (.of_simple ?_)).append
      (.of_simple (all_simple_arithmeticCode _ _))).append hstore
    cases kind <;> rfl
  | negate hp hk hv hvv =>
    exact ((lowerExpr_confined hv).coerced _).append (.of_simple (all_simple_arithmeticCode _ _))
  | not hv hvv => exact ((lowerExpr_confined hv).coerced _).append (.of_simple rfl)
  | group hi => exact lowerExpr_confined hi
  | emptyList hn => exact .of_simple rfl
  | listOf hn he =>
    refine (Code.Confined.of_simple rfl).append ?_
    split_ifs
    · exact .of_simple rfl
    · exact ((Code.Confined.of_simple rfl).append (lowerEntries_confined he)).append
        (.of_simple rfl)
  | absent he => exact .of_simple rfl

theorem lowerArgs_confined : ∀ {args : List Expr} {types : List Ty} {s t : LowerState} {c : Code},
    lowerArgs cx args types s = .ok c t → Code.Confined (cx.InSight s.body.locals) [] c
  | [], _, s, t, c, h | _ :: _, [], s, t, c, h => by
    obtain ⟨rfl, rfl⟩ := pure_ok.mp h
    exact .of_simple rfl
  | arg :: args, type :: types, s, t, c, h => by
    simp only [lowerArgs, bind_ok, pure_ok, Lowered.into_ok] at h
    obtain ⟨v, s₁, hv, _, _, ⟨-, rfl, rfl⟩, rest, _, hrest, rfl, rfl⟩ := h
    have hlater := lowerArgs_confined hrest
    rw [(lowerExpr_kept hv).locals] at hlater
    exact ((lowerExpr_confined hv).coerced type).append hlater

theorem lowerEntries_confined : ∀ {entries : List Expr} {s t : LowerState} {c : Code},
    lowerEntries cx entries s = .ok c t → Code.Confined (cx.InSight s.body.locals) [] c
  | [], s, t, c, h => by
    obtain ⟨rfl, rfl⟩ := pure_ok.mp h
    exact .of_simple rfl
  | entry :: entries, s, t, c, h => by
    simp only [lowerEntries, bind_ok, pure_ok, Lowered.into_ok] at h
    obtain ⟨v, s₁, hv, _, _, ⟨-, rfl, rfl⟩, rest, _, hrest, rfl, rfl⟩ := h
    have hlater := lowerEntries_confined hrest
    rw [(lowerExpr_kept hv).locals] at hlater
    exact (((Code.Confined.of_simple rfl).append ((lowerExpr_confined hv).coerced .object)).append
      (.of_simple rfl)).append hlater

end

end ClassGen
