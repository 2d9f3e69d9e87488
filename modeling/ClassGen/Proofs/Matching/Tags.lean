import ClassGen.Proofs.Lowering.Expr
import ClassGen.Proofs.Machine.Run
import ClassGen.Proofs.Matching.Arms
import ClassGen.Proofs.Types.Names
import ClassGen.Proofs.Types.Placeholders

/-! What the tag of a list tells. A list is made with the name of its element type, and the test for
a list pattern compares names: so it tells element types apart as far as their names do. -/

namespace ClassGen.Matching

open Machine (Value Object Arith Runs)

/-- The list that is made for elements of this type, as an object. -/
def wrapper (element : Ty) : Object := ⟨Library.listWrapper, some [.text element.name]⟩

/-- The tests as a heap answers them: an object is of the class it was made of, and its tag is the
text that its constructor was given. -/
def heapOracles (heap : List Object) : Oracles Value where
  isInstance v c :=
    match v with
    | .object a => heap[a]?.any fun o => o.className == c
    | _ => false
  isNull _ := false
  name v :=
    match v with
    | .object a =>
      match heap[a]?.bind Object.args with
      | some [tag] => tag
      | _ => v
    | _ => v
  text := .text
  equals v w := decide (v = w)
  truth b := .int (if b then 1 else 0)
  isZero v := decide (v = .int 0)
  isZero_truth := by decide

section Making

variable {A : Arith} {P : Code}

/-- The code that begins every list makes it on the heap and leaves it on the stack. -/
theorem runs_newWrapper {element : Ty} {σ : Machine.State}
    (hat : P.At σ.pc (newWrapper (.list element))) :
    Runs A P σ { σ with
      pc := σ.pc + 4, stack := .object σ.heap.length :: σ.stack, heap :=
        σ.heap ++ [wrapper element] } := by
  obtain ⟨hnew, hat⟩ := Code.at_cons.mp hat
  obtain ⟨hdup, hat⟩ := Code.at_cons.mp hat
  obtain ⟨htag, hat⟩ := Code.at_cons.mp hat
  refine (Machine.runs_new hnew).trans
    ((Machine.runs_op hdup rfl).trans ((Machine.runs_push htag).trans ?_))
  refine Machine.runs_construct hat.head rfl (d := ⟨[.object "java/lang/String"], none⟩)
    (by decide) ?_
  simp [Machine.State.construct, Machine.State.create, Machine.State.next, Machine.State.moved,
    Machine.constantValue, wrapper]

end Making

section Testing

variable {P : Code} {heap : List Object} {n q slot a : Nat} {next : Label} {stack : List Value}
  {slots : UInt16 → Value} {element pattern : Ty}

/-- The test for lists of `pattern`, of a list that was made for elements of type `element`: its
class is right, and its tag if the names are the same. -/
theorem run_patternTest (hP : P.marks.Nodup) (hobject : heap[a]? = some (wrapper element))
    (hslot : slots slot.toUInt16 = .object a) (hat : P.At n (patternTest slot next (.list pattern)))
    (hnext : P[q]? = some (.mark next)) :
    Run (heapOracles heap) P ⟨n, stack, slots⟩ (List.range' n 9)
      ⟨if element.name = pattern.name then n + 9 else q, stack, slots⟩ := by
  let arm : ArmCode := ⟨.list pattern, next, [], []⟩
  have hclass : arm.hasClass (heapOracles heap) (.object a) = true := by
    simp [arm, ArmCode.hasClass, heapOracles, hobject, wrapper, Ty.className]
  have htag : arm.hasTag (heapOracles heap) (.object a) = decide (element.name = pattern.name) := by
    simp [arm, ArmCode.hasTag, heapOracles, hobject, wrapper]
  have hlength : (arm.test slot).length = 9 := rfl
  have hrun : Run (heapOracles heap) P ⟨n, stack, slots⟩ _ _ :=
    run_test hP (show P.At n (arm.test slot) from hat) hnext
  rw [hslot] at hrun
  simpa [ArmCode.tried, ArmCode.accepts, hclass, htag, hlength] using hrun

end Testing

/-- Tags tell element types apart as far as names do. Code for a list, with entries or without, that
is annotated as one of `element` begins with code that makes it, and the test for a list of
`pattern` then passes if and only if the two types have the same name. So over a vocabulary of
legible names, it passes if and only if they are the same type. -/
theorem lowerExpr_list_told_apart {cx : BodyContext} {e : Expr} {s t : LowerState} {v : Lowered}
    {element : Ty} (hlist : e = .emptyList e.note ∨ ∃ entries, e = .listOf e.note entries)
    (htype : Specialization.resolve cx.bindings e.type = .ok (.list element))
    (h : lowerExpr cx e s = .ok v t) :
    (∃ fill, v = ⟨.list element, newWrapper (.list element) ++ fill⟩) ∧
      (∀ (A : Arith) (P : Code) (σ : Machine.State), P.At σ.pc v.code →
        Runs A P σ { σ with
          pc := σ.pc + 4, stack := .object σ.heap.length :: σ.stack, heap :=
            σ.heap ++ [wrapper element] }) ∧
      ∀ (pattern : Ty) (P : Code) (heap : List Object) (n q slot a : Nat) (next : Label)
        (stack : List Value)
        (slots : UInt16 → Value), P.marks.Nodup → heap[a]? = some (wrapper element) →
        slots slot.toUInt16 = .object a → P.At n (patternTest slot next (.list pattern)) →
        P[q]? = some (.mark next) →
        Run (heapOracles heap) P ⟨n, stack, slots⟩ (List.range' n 9)
          ⟨if element.name = pattern.name then n + 9 else q, stack, slots⟩ ∧
        ∀ vocabulary : List Ty, Ty.Legible vocabulary → element.isOver vocabulary = true →
          pattern.isOver vocabulary = true →
          Run (heapOracles heap) P ⟨n, stack, slots⟩ (List.range' n 9)
            ⟨if element = pattern then n + 9 else q, stack, slots⟩ := by
  have hmade : ∃ fill, v = ⟨.list element, newWrapper (.list element) ++ fill⟩ := by
    rcases hlist with he | ⟨entries, he⟩
    · rw [he] at h
      cases exprRun_of_ok h with
      | emptyList hn =>
        cases htype.symm.trans hn
        exact ⟨[], by simp [wrapperType]⟩
      | absent hn => cases hn
    · rw [he] at h
      cases exprRun_of_ok h with
      | listOf hn hentries =>
        cases htype.symm.trans hn
        exact ⟨_, rfl⟩
      | absent hn => cases hn
  refine ⟨hmade, fun A P σ hat => ?_, ?_⟩
  · obtain ⟨fill, rfl⟩ := hmade
    exact runs_newWrapper hat.left
  · intro pattern P heap n q slot a next stack slots hP hobject hslot hat hnext
    have hrun : Run (heapOracles heap) P ⟨n, stack, slots⟩ _ _ :=
      run_patternTest hP hobject hslot hat hnext
    refine ⟨hrun, fun vocabulary hlegible helement hpattern => ?_⟩
    simpa only [Ty.name_inj hlegible helement hpattern] using hrun

/-- The test for a list pattern, of the object in slot zero, with what comes of either outcome
behind it. -/
def sampleTest (pattern : Ty) : Code := patternTest 0 0 (.list pattern) ++ [.op .vreturn, .mark 0]

theorem nodup_sampleTest (pattern : Ty) : (sampleTest pattern).marks.Nodup := List.nodup_singleton 0

/-- A list of numbers or texts is known from one of numbers or truth values. -/
theorem lowerExpr_list_told_apart_union :
    ∃ v t, lowerExpr (sampleContext [] [])
      (.listOf ⟨.list (.union [.int, .string]), {}⟩ [.literal ⟨.int, {}⟩ (.int 7)])
        (sampleState []) = .ok v t ∧
      Run (heapOracles [wrapper (.union [.int, .string])]) (sampleTest (.union [.int, .string]))
        ⟨0, [], fun _ => .object 0⟩ (List.range' 0 9) ⟨9, [], fun _ => .object 0⟩ ∧
      Run (heapOracles [wrapper (.union [.int, .string])]) (sampleTest (.union [.int, .boolean]))
        ⟨0, [], fun _ => .object 0⟩ (List.range' 0 9) ⟨10, [], fun _ => .object 0⟩ := by
  let e : Expr := .listOf ⟨.list (.union [.int, .string]), {}⟩ [.literal ⟨.int, {}⟩ (.int 7)]
  have hlowered : ∃ v t, lowerExpr (sampleContext [] []) e (sampleState []) = .ok v t := ⟨_, _, rfl⟩
  obtain ⟨v, t, h⟩ := hlowered
  have htype : Specialization.resolve (sampleContext [] []).bindings e.type =
      .ok (.list (.union [.int, .string])) := rfl
  have htests := (lowerExpr_list_told_apart (.inr ⟨_, rfl⟩) htype h).2.2
  have hplain : ([.int, .string, .boolean] : List Ty).all fun t =>
      t.name.toList.all fun c => c ≠ '[' ∧ c ≠ ']' ∧ c ≠ '|' := by decide +kernel
  have hlegible : Ty.Legible [.int, .string, .boolean] :=
    ⟨by simpa only [List.all_eq_true, decide_eq_true_eq] using hplain, by decide +kernel⟩
  have htest (pattern : Ty) (hpattern : pattern.isOver [.int, .string, .boolean] = true) :=
    (htests pattern (sampleTest pattern) [wrapper (.union [.int, .string])] 0 10 0 0 0 []
      (fun _ => .object 0)
      (nodup_sampleTest pattern) rfl rfl (Code.at_self _).left rfl).2 _ hlegible
        (by decide +kernel) hpattern
  have hpass := htest (.union [.int, .string]) (by decide +kernel)
  have hfail := htest (.union [.int, .boolean]) (by decide +kernel)
  rw [if_pos rfl] at hpass
  rw [if_neg (by decide +kernel)] at hfail
  exact ⟨v, t, h, hpass, hfail⟩

/-- A list of boxes of numbers is taken for a list of boxes of texts: the tag of both is `Box`. -/
theorem run_patternTest_confuses :
    Ty.struct sampleBox [("T", .int)] ≠ .struct sampleBox [("T", .string)] ∧
      (∃ t, lowerExpr (sampleContext [] [])
        (.emptyList ⟨.list (.struct sampleBox [("T", .int)]), {}⟩) (sampleState []) =
        .ok ⟨.list (.struct sampleBox [("T", .int)]),
          newWrapper (.list (.struct sampleBox [("T", .int)]))⟩ t) ∧
      Run (heapOracles [wrapper (.struct sampleBox [("T", .int)])])
        (sampleTest (.struct sampleBox [("T", .string)])) ⟨0, [], fun _ => .object 0⟩
          (List.range' 0 9)
        ⟨9, [], fun _ => .object 0⟩ := by
  have hobject : [wrapper (.struct sampleBox [("T", .int)])][0]? =
      some (wrapper (.struct sampleBox [("T", .int)])) := rfl
  have hnext : (sampleTest (.struct sampleBox [("T", .string)]))[10]? = some (.mark 0) := rfl
  have htest : Run _ (sampleTest (.struct sampleBox [("T", .string)])) ⟨0, [], fun _ =>
      Value.object 0⟩ _ _ :=
    run_patternTest (nodup_sampleTest _) hobject rfl (Code.at_self _).left hnext
  have hname : (Ty.struct sampleBox [("T", .int)]).name =
      (Ty.struct sampleBox [("T", .string)]).name := rfl
  rw [if_pos hname] at htest
  exact ⟨by decide +kernel, ⟨_, rfl⟩, htest⟩

end ClassGen.Matching
