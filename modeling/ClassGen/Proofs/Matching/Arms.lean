import ClassGen.Proofs.ControlFlow.Inward
import ClassGen.Proofs.Matching.Machine

/-! The first arm that accepts the subject is taken. Whatever the oracles say, a run of the code of
a match computes the subject, makes the tests of the arms in order up to the first that passes, and
then runs that arm alone. -/

namespace ClassGen.Matching

/-! ### The code of a match -/

/-- The pieces of the code of an arm. -/
structure ArmCode where
  pattern : Ty
  /-- Where a failed test goes. -/
  next : Label
  bound : Code
  body : Code

namespace ArmCode

def test (slot : Nat) (a : ArmCode) : Code := patternTest slot a.next a.pattern

/-- The binding and the body, which only an accepted subject gets to. -/
def taken (done : Label) (a : ArmCode) : Code := a.bound ++ thenGoto a.body done

def code (slot : Nat) (done : Label) (a : ArmCode) : Code :=
  a.test slot ++ a.taken done ++ [.mark a.next]

variable {V : Type}

def hasClass (o : Oracles V) (v : V) (a : ArmCode) : Bool := o.isInstance v a.pattern.className

/-- Only lists have tags to compare. -/
def hasTag (o : Oracles V) (v : V) (a : ArmCode) : Bool :=
  match a.pattern with
  | .list element => o.equals (o.name v) (o.text element.name)
  | _ => true

def accepts (o : Oracles V) (v : V) (a : ArmCode) : Bool := a.hasClass o v && a.hasTag o v

/-- Instructions of the test that are run: those for the tag only if the class is right. -/
def tried (o : Oracles V) (v : V) (slot : Nat) (a : ArmCode) : Nat :=
  if a.hasClass o v then (a.test slot).length else 3

end ArmCode

/-- Arm `k` is the first that accepts `v`. -/
structure First {V : Type} (o : Oracles V) (v : V) (arms : List ArmCode) (k : Nat)
    (a : ArmCode) : Prop where
  arm : arms[k]? = some a
  accepts : a.accepts o v = true
  first : ∀ j < k, ∀ b, arms[j]? = some b → b.accepts o v = false

/-- Positions that control takes through the tests of arms that stand at `n`: from one arm to the
next by the label between them, and up to the first that accepts. -/
def testsFrom {V : Type} (o : Oracles V) (v : V) (slot : Nat) (done : Label) :
    Nat → List ArmCode → List Nat
  | _, [] => []
  | n, a :: rest =>
    if a.accepts o v then List.range' n (a.test slot).length
    else List.range' n (a.tried o v slot) ++ (n + (a.test slot).length + (a.taken done).length) ::
      testsFrom o v slot done (n + (a.code slot done).length) rest

/-- The pieces of the code of a match. -/
structure MatchCode where
  subject : Code
  /-- Where the subject is kept. -/
  slot : Nat
  arms : List ArmCode
  done : Label

namespace MatchCode

variable {V : Type}

def store (m : MatchCode) : Instr := Code.storeSlot m.slot .reference

def code (m : MatchCode) : Code :=
  m.subject ++ [m.store] ++ m.arms.flatMap (ArmCode.code m.slot m.done) ++ [.mark m.done]

/-- Where the first `k` arms end. -/
def armAt (m : MatchCode) (k : Nat) : Nat :=
  m.subject.length + 1 + ((m.arms.take k).flatMap (ArmCode.code m.slot m.done)).length

/-- Where the binding and the body of arm `k` stand. -/
def takenAt (m : MatchCode) (k : Nat) (a : ArmCode) : Nat := m.armAt k + (a.test m.slot).length

/-- The end of the statement. -/
def doneAt (m : MatchCode) : Nat := m.armAt m.arms.length

/-- The tests that are made of `v` when the statement stands at `n`. -/
def tests (m : MatchCode) (o : Oracles V) (v : V) (n : Nat) : List Nat :=
  testsFrom o v m.slot m.done (n + m.armAt 0) m.arms

/-- A run through `first` computes the subject `v`, and the next instruction keeps it. -/
structure Computes (m : MatchCode) (o : Oracles V) (P : Code) (n : Nat) (σ : State V)
    (first : List Nat) (v : V) (ρ : State V) : Prop where
  run : ∃ slots, Run o P σ first ⟨n + m.subject.length, v :: ρ.stack, slots⟩ ∧
    ρ.slots = Function.update slots m.slot.toUInt16 v
  inside : ∀ k ∈ first, Code.Within n m.subject k
  pc : ρ.pc = n + m.armAt 0

end MatchCode

/-- The arms are lowered to these pieces, one after the other. -/
inductive ArmsLowered (cx : BodyContext) (slot : Nat) :
    List Arm → LowerState → List ArmCode → LowerState → Prop
  | nil (s : LowerState) : ArmsLowered cx slot [] s [] s
  | cons {arm : Arm} {rest : List Arm} {s s₁ s₂ t : LowerState} {pattern : Ty} {bound body : Code}
      {as : List ArmCode}
    (hpattern : Specialization.resolve cx.bindings arm.pattern = .ok pattern)
    (hbound : bindSubject slot pattern arm.body.scope arm.binding (s.skip 1) = .ok bound s₁)
    (hbody : lowerBlock cx arm.body s₁ = .ok body s₂) (hrest : ArmsLowered cx slot rest s₂ as t) :
    ArmsLowered cx slot (arm :: rest) s (⟨pattern, s.body.nextLabel, bound, body⟩ :: as) t

/-- The match on `subject` is lowered to these pieces. -/
def MatchCode.Of (m : MatchCode) (cx : BodyContext) (subject : Expr) (arms : List Arm)
    (s t : LowerState) : Prop :=
  ∃ v s₁, lowerExpr cx subject s = .ok v s₁ ∧ m.subject = v.code ++ coerce v.type .object ∧
    m.slot = s₁.body.nextSlot ∧ m.done = s₁.body.nextLabel ∧
    ArmsLowered cx m.slot arms ((s₁.withSlot .reference).skip 1) m.arms t

/-- How a run that begins with a match goes on. -/
inductive Course {V : Type} (o : Oracles V) (P : Code) (m : MatchCode) (n : Nat) (σ : State V)
    (visited : List Nat) (τ : State V) : Prop
  /-- The subject is not there yet. -/
  | subject (hin : ∀ k ∈ visited ++ [τ.pc], Code.Within n (m.subject ++ [m.store]) k)
  /-- The subject is there, and the tests are not over. -/
  | testing {first seen rest : List Nat} {v : V} {ρ : State V} (hv : m.Computes o P n σ first v ρ)
    (hvisited : visited = first ++ (n + m.subject.length) :: seen)
    (htests : m.tests o v n = seen ++ τ.pc :: rest)
  /-- The tests are over, and control is in the arm that is the first to accept. -/
  | inside {first inside : List Nat} {v : V} {ρ : State V} {k : Nat} {a : ArmCode}
      (hv : m.Computes o P n σ first v ρ)
    (hvisited : visited = first ++ (n + m.subject.length) :: (m.tests o v n ++ inside))
    (hfirst : First o v m.arms k a) (henter : (inside ++ [τ.pc]).head? = some (n + m.takenAt k a))
    (hin : ∀ j ∈ inside ++ [τ.pc], Code.Within (n + m.takenAt k a) (a.taken m.done) j)
  /-- Control has left that arm, for the end of the statement. -/
  | left {first inside outside : List Nat} {v : V} {ρ : State V} {k : Nat} {a : ArmCode}
    (hv : m.Computes o P n σ first v ρ)
    (hvisited : visited = first ++ (n + m.subject.length) :: (m.tests o v n ++ inside ++ outside))
    (hfirst : First o v m.arms k a) (henter : inside.head? = some (n + m.takenAt k a))
    (hin : ∀ j ∈ inside, Code.Within (n + m.takenAt k a) (a.taken m.done) j)
    (hend : (outside ++ [τ.pc]).head? = some (n + m.doneAt))
  /-- No arm accepts, and control has gone to the end of the statement. -/
  | passed {first outside : List Nat} {v : V} {ρ : State V} (hv : m.Computes o P n σ first v ρ)
    (hvisited : visited = first ++ (n + m.subject.length) :: (m.tests o v n ++ outside))
    (hnone : ∀ a ∈ m.arms, a.accepts o v = false)
    (hend : (outside ++ [τ.pc]).head? = some (n + m.doneAt))

/-! ### Tests -/

section Tests

variable {V : Type} {o : Oracles V} {P : Code} {n q slot : Nat} {l : Label} {stack : List V}
  {slots : UInt16 → V}

/-- A branch on a truth value that goes to `l` if it is false. -/
theorem exec_branch (hP : P.marks.Nodup) (hl : P[q]? = some (.mark l)) (b : Bool) :
    exec o P ⟨n, o.truth b :: stack, slots⟩ (.jump .ifeq l) =
      some ⟨if b then n + 1 else q, stack, slots⟩ := by
  have hexec : exec o P ⟨n, o.truth b :: stack, slots⟩ (.jump .ifeq l) =
    if o.isZero (o.truth b) then (Machine.target P l).map fun n => ⟨n, stack, slots⟩
    else some ⟨n + 1, stack, slots⟩ := rfl
  rw [hexec, o.isZero_truth, Machine.target_eq hP hl]
  cases b <;> rfl

theorem exec_checkcast {c : String} {v : V} (h : o.isInstance v c = true) :
    exec o P ⟨n, v :: stack, slots⟩ (Code.checkcast c) = some ⟨n + 1, v :: stack, slots⟩ := by
  have hexec : exec o P ⟨n, v :: stack, slots⟩ (Code.checkcast c) =
    if o.isInstance v c || o.isNull v then some ⟨n + 1, v :: stack, slots⟩ else none := rfl
  rw [hexec, h, Bool.true_or, if_pos rfl]

theorem exec_call (target : Member) : exec o P ⟨n, stack, slots⟩ (Code.callVirtual target) =
    (answer o target stack).map fun stack => ⟨n + 1, stack, slots⟩ := rfl

theorem exec_name (v : V) : exec o P ⟨n, v :: stack, slots⟩ (Code.callVirtual Library.wrapperName) =
    some ⟨n + 1, o.name v :: stack, slots⟩ := by
  rw [exec_call, answer, if_pos rfl]
  rfl

theorem exec_equals (v w : V) :
    exec o P ⟨n, v :: w :: stack, slots⟩ (Code.callVirtual Library.stringEquals) =
    some ⟨n + 1, o.truth (o.equals w v) :: stack, slots⟩ := by
  rw [exec_call, answer, if_neg (by decide)]
  rfl

theorem run_class {c : String} (hP : P.marks.Nodup)
    (hat : P.At n [Code.loadSlot slot .reference, Code.instanceOf c, .jump .ifeq l])
    (hl : P[q]? = some (.mark l)) :
    Run o P ⟨n, stack, slots⟩ (List.range' n 3)
      ⟨if o.isInstance (slots slot.toUInt16) c then n + 3 else q, stack, slots⟩ := by
  obtain ⟨hload, hat⟩ := Code.at_cons.mp hat
  obtain ⟨htest, hat⟩ := Code.at_cons.mp hat
  exact .known hload rfl rfl (.known htest rfl rfl (.single hat.head rfl (exec_branch hP hl _)))

/-- The cast succeeds where the class was found right. -/
theorem run_tag {t : String} (hP : P.marks.Nodup)
    (hclass : o.isInstance (slots slot.toUInt16) Library.listWrapper = true)
    (hat : P.At n [Code.loadSlot slot .reference, Code.checkcast Library.listWrapper,
      Code.callVirtual Library.wrapperName, Code.pushText t, Code.callVirtual Library.stringEquals,
      .jump .ifeq l])
    (hl : P[q]? = some (.mark l)) :
    Run o P ⟨n, stack, slots⟩ (List.range' n 6)
      ⟨if o.equals (o.name (slots slot.toUInt16)) (o.text t) then n + 6 else q, stack, slots⟩ := by
  obtain ⟨hload, hat⟩ := Code.at_cons.mp hat
  obtain ⟨hcast, hat⟩ := Code.at_cons.mp hat
  obtain ⟨hname, hat⟩ := Code.at_cons.mp hat
  obtain ⟨htext, hat⟩ := Code.at_cons.mp hat
  obtain ⟨hequals, hat⟩ := Code.at_cons.mp hat
  exact .known hload rfl rfl (.known hcast rfl (exec_checkcast hclass)
    (.known hname (by decide) (exec_name _) (.known htext rfl rfl
      (.known hequals (by decide) (exec_equals _ _) (.single hat.head rfl (exec_branch hP hl _))))))

/-- The test of an arm passes or goes to the next label, and leaves everything as it was. -/
theorem run_test {a : ArmCode} (hP : P.marks.Nodup) (hat : P.At n (a.test slot))
    (hl : P[q]? = some (.mark a.next)) :
    Run o P ⟨n, stack, slots⟩ (List.range' n (a.tried o (slots slot.toUInt16) slot))
      ⟨if a.accepts o (slots slot.toUInt16) then n + (a.test slot).length else q, stack,
        slots⟩ := by
  obtain ⟨pattern, next, bound, body⟩ := a
  obtain ⟨hclassAt, htagAt⟩ := Code.at_append.mp hat
  have hclassRun : Run o P ⟨n, stack, slots⟩ _ _ := run_class hP hclassAt hl
  cases hclass : o.isInstance (slots slot.toUInt16) pattern.className with
  | false =>
    rw [hclass] at hclassRun
    simpa [ArmCode.tried, ArmCode.accepts, ArmCode.hasClass, hclass] using hclassRun
  | true =>
    rw [hclass, if_pos rfl] at hclassRun
    cases pattern with
    | list element =>
      have htagRun : Run o P ⟨n + 3, stack, slots⟩ _ _ := run_tag hP hclass htagAt hl
      simpa [ArmCode.tried, ArmCode.accepts, ArmCode.hasClass, ArmCode.hasTag, ArmCode.test,
        patternTest, hclass]
        using hclassRun.trans htagRun
    | _ =>
      simpa [ArmCode.tried, ArmCode.accepts, ArmCode.hasClass, ArmCode.hasTag, ArmCode.test,
        patternTest, hclass]
        using hclassRun

theorem tried_le (o : Oracles V) (v : V) (slot : Nat) (a : ArmCode) :
    a.tried o v slot ≤ (a.test slot).length := by
  unfold ArmCode.tried
  split_ifs
  · exact Nat.le_refl _
  · simp [ArmCode.test, patternTest]

theorem isKnown_test {i : Instr} {a : ArmCode} (h : i ∈ a.test slot) : isKnown i = true := by
  have hall : (a.test slot).all isKnown = true := by
    unfold ArmCode.test patternTest
    split <;> rfl
  exact List.all_eq_true.mp hall i h

/-- Tests consist of known instructions, and so do the ways between them. -/
theorem isKnown_testsFrom {v : V} {done : Label} {as : List ArmCode}
    (hat : P.At n (as.flatMap (ArmCode.code slot done))) :
    ∀ k ∈ testsFrom o v slot done n as, ∃ i, P[k]? = some i ∧ isKnown i = true := by
  induction as generalizing n with
  | nil => exact nofun
  | cons a as ih =>
    obtain ⟨hfirst, hrest⟩ := Code.at_append.mp hat
    obtain ⟨hcode, hmark⟩ := Code.at_append.mp hfirst
    obtain ⟨htest, -⟩ := Code.at_append.mp hcode
    have hknown (count : Nat) (hle : count ≤ (a.test slot).length) (k : Nat)
        (hk : k ∈ List.range' n count) :
        ∃ i, P[k]? = some i ∧ isKnown i = true := by
      obtain ⟨j, hj, rfl⟩ := List.mem_range'.mp hk
      have hlt : j < (a.test slot).length := by omega
      rw [Nat.one_mul]
      exact ⟨_, htest.getElem? hlt, isKnown_test (List.getElem_mem hlt)⟩
    intro k hk
    rw [testsFrom] at hk
    split_ifs at hk
    · exact hknown _ (Nat.le_refl _) k hk
    · rcases List.mem_append.mp hk with hk | hk
      · exact hknown _ (tried_le o v slot a) k hk
      · rcases List.mem_cons.mp hk with rfl | hk
        · refine ⟨.mark a.next, ?_, rfl⟩
          rw [Nat.add_assoc, ← List.length_append]
          exact hmark.head
        · exact ih hrest k hk

/-- The tests lead to the first arm that accepts, or past all of them. -/
theorem run_testsFrom {done : Label} {as : List ArmCode} (hP : P.marks.Nodup)
    (hat : P.At n (as.flatMap (ArmCode.code slot done))) (stack : List V) (slots : UInt16 → V) :
    (∃ k a, First o (slots slot.toUInt16) as k a ∧
      Run o P ⟨n, stack, slots⟩ (testsFrom o (slots slot.toUInt16) slot done n as)
        ⟨n + ((as.take k).flatMap (ArmCode.code slot done)).length + (a.test slot).length,
          stack, slots⟩) ∨
    ((∀ a ∈ as, a.accepts o (slots slot.toUInt16) = false) ∧
      Run o P ⟨n, stack, slots⟩ (testsFrom o (slots slot.toUInt16) slot done n as)
        ⟨n + (as.flatMap (ArmCode.code slot done)).length, stack, slots⟩) := by
  induction as generalizing n with
  | nil => exact .inr ⟨nofun, .refl _⟩
  | cons a as ih =>
    obtain ⟨hfirst, hrest⟩ := Code.at_append.mp hat
    obtain ⟨hcode, hmark⟩ := Code.at_append.mp hfirst
    obtain ⟨htest, -⟩ := Code.at_append.mp hcode
    have hnext : P[n + (a.test slot).length + (a.taken done).length]? = some (.mark a.next) := by
      rw [Nat.add_assoc, ← List.length_append]
      exact hmark.head
    have hrun : Run o P ⟨n, stack, slots⟩ _ _ := run_test hP htest hnext
    cases haccepts : a.accepts o (slots slot.toUInt16) with
    | true =>
      refine .inl ⟨0, a, ⟨rfl, haccepts, nofun⟩, ?_⟩
      have htried : a.tried o (slots slot.toUInt16) slot = (a.test slot).length := by
        rw [ArmCode.accepts, Bool.and_eq_true] at haccepts
        rw [ArmCode.tried, if_pos haccepts.1]
      rw [haccepts, if_pos rfl, htried] at hrun
      simpa [testsFrom, haccepts] using hrun
    | false =>
      rw [haccepts, if_neg Bool.false_ne_true] at hrun
      have hpass : Run o P ⟨n + (a.test slot).length + (a.taken done).length, stack, slots⟩
          [n + (a.test slot).length + (a.taken done).length]
            ⟨n + (a.code slot done).length, stack, slots⟩ := by
        have hlength : n + (a.code slot done).length =
            n + (a.test slot).length + (a.taken done).length + 1 := by
          simp only [ArmCode.code, List.length_append, List.length_singleton]
          omega
        rw [hlength]
        exact .single hnext rfl rfl
      have hskip := hrun.trans hpass
      have htests : testsFrom o (slots slot.toUInt16) slot done n (a :: as) =
          List.range' n (a.tried o (slots slot.toUInt16) slot) ++
            [n + (a.test slot).length + (a.taken done).length] ++
            testsFrom o (slots slot.toUInt16) slot done (n + (a.code slot done).length) as := by
        simp [testsFrom, haccepts]
      rw [htests]
      rcases ih hrest with ⟨k, b, hk, hlater⟩ | ⟨hnone, hlater⟩
      · refine .inl ⟨k + 1, b, ⟨hk.arm, hk.accepts, fun j hj c hc => ?_⟩, ?_⟩
        · cases j with
          | zero =>
            cases hc
            exact haccepts
          | succ j => exact hk.first j (by omega) c hc
        · simpa [Nat.add_assoc] using hskip.trans hlater
      · refine .inr ⟨List.forall_mem_cons.mpr ⟨haccepts, hnone⟩, ?_⟩
        simpa [Nat.add_assoc] using hskip.trans hlater

end Tests

/-! ### Lowered arms -/

section Lowered

variable {cx : BodyContext} {slot : Nat} {done : Label} {arms : List Arm} {as : List ArmCode}
  {s t : LowerState}

theorem exists_armsLowered {c : Code} (h : lowerArms cx slot done arms s = .ok c t) :
    ∃ as : List ArmCode, c = as.flatMap (ArmCode.code slot done) ∧
      ArmsLowered cx slot arms s as t := by
  induction arms generalizing s c with
  | nil =>
    obtain ⟨rfl, rfl⟩ := ClassGen.Run.pure_ok.mp h
    exact ⟨[], rfl, .nil _⟩
  | cons arm rest ih =>
    obtain ⟨pattern, bound, s₁, b, s₂, a, hp, hbound, hb, ha, rfl⟩ := lowerArms_cons h
    obtain ⟨as, rfl, hrest⟩ := ih ha
    refine ⟨⟨pattern, s.body.nextLabel, bound, b⟩ :: as, ?_, .cons hp hbound hb hrest⟩
    simp [ArmCode.code, ArmCode.test, ArmCode.taken]

/-- An arm is left for the end of the statement, and in no other way. -/
theorem ArmsLowered.taken (h : ArmsLowered cx slot arms s as t) {a : ArmCode} (ha : a ∈ as) :
    (a.taken done).Inward [done] ∧ Code.fallsThrough (a.taken done) = false := by
  induction h with
  | nil => cases ha
  | @cons arm rest s s₁ s₂ t pattern bound body as _ hbound hbody _ ih =>
    rcases List.mem_cons.mp ha with rfl | ha
    · refine ⟨(bindSubject_inward hbound).append
        ((lowerBlock_inward hbody).thenGoto fun _ => by simp), ?_⟩
      rw [ArmCode.taken, thenGoto]
      split_ifs with hfalls
      · rw [← List.append_assoc]
        exact Code.fallsThrough_terminal _ rfl
      · obtain ⟨last, hlast, hterminal⟩ :=
          Code.fallsThrough_eq_false.mp (Bool.eq_false_iff.mpr hfalls)
        exact Code.fallsThrough_eq_false.mpr
          ⟨last, by simp [List.getLast?_append, hlast], hterminal⟩
    · exact ih ha

end Lowered

/-! ### Runs -/

section Runs

variable {V : Type} {o : Oracles V} {P : Code} {n : Nat} {m : MatchCode} {σ τ : State V}
  {visited : List Nat}

theorem at_arm {slot : Nat} {done : Label} {as : List ArmCode} {k : Nat} {a : ArmCode}
    (hat : P.At n (as.flatMap (ArmCode.code slot done))) (hk : as[k]? = some a) :
    P.At (n + ((as.take k).flatMap (ArmCode.code slot done)).length) (a.code slot done) := by
  obtain ⟨hlt, rfl⟩ := List.getElem?_eq_some_iff.mp hk
  have hsplit : as = as.take k ++ as[k] :: as.drop (k + 1) := by simp
  rw [hsplit, List.flatMap_append, List.flatMap_cons] at hat
  exact hat.right.left

namespace MatchCode

/-- Where the pieces of a match stand. -/
theorem at_pieces (hat : P.At n m.code) :
    P.At n m.subject ∧ P[n + m.subject.length]? = some m.store ∧
      P.At (n + m.armAt 0) (m.arms.flatMap (ArmCode.code m.slot m.done)) ∧ P[n + m.doneAt]? =
        some (.mark m.done) := by
  obtain ⟨hat, hdone⟩ := Code.at_append.mp hat
  obtain ⟨hat, harms⟩ := Code.at_append.mp hat
  obtain ⟨hsubject, hstore⟩ := Code.at_append.mp hat
  refine ⟨hsubject, hstore.head, by simpa [armAt] using harms, ?_⟩
  have hend : m.doneAt = (m.subject ++ [m.store] ++ m.arms.flatMap
      (ArmCode.code m.slot m.done)).length := by
    simp [doneAt, armAt]
    omega
  rw [hend]
  exact hdone.head

theorem at_taken (hat : P.At n m.code) {k : Nat} {a : ArmCode} (hk : m.arms[k]? = some a) :
    P.At (n + m.takenAt k a) (a.taken m.done) := by
  obtain ⟨-, -, harms, -⟩ := at_pieces hat
  obtain ⟨hcode, -⟩ := Code.at_append.mp (at_arm harms hk)
  simpa [takenAt, armAt, Nat.add_assoc] using hcode.right

/-- Once the subject is kept, the tests lead to the arm that is first to accept it, or to the end.
-/
theorem decides (hP : P.marks.Nodup) (hat : P.At n m.code) (stack : List V) (slots : UInt16 → V) :
    (∃ k a, First o (slots m.slot.toUInt16) m.arms k a ∧
      Run o P ⟨n + m.armAt 0, stack, slots⟩ (m.tests o (slots m.slot.toUInt16) n)
        ⟨n + m.takenAt k a, stack, slots⟩) ∨
    ((∀ a ∈ m.arms, a.accepts o (slots m.slot.toUInt16) = false) ∧
      Run o P ⟨n + m.armAt 0, stack, slots⟩ (m.tests o (slots m.slot.toUInt16) n)
        ⟨n + m.doneAt, stack, slots⟩) := by
  obtain ⟨-, -, harms, -⟩ := at_pieces hat
  rcases run_testsFrom (o := o) hP harms stack slots with ⟨k, a, hfirst, hrun⟩ | ⟨hnone, hrun⟩
  · refine .inl ⟨k, a, hfirst, ?_⟩
    simpa [tests, takenAt, armAt, Nat.add_assoc] using hrun
  · refine .inr ⟨hnone, ?_⟩
    simpa [tests, doneAt, armAt, Nat.add_assoc] using hrun

/-- The instruction that keeps the subject takes it from the stack. -/
theorem keeps (hstore : P[σ.pc]? = some m.store) (h : Step o P σ τ) :
    ∃ v, σ.stack = v :: τ.stack ∧ τ.pc = σ.pc + 1 ∧
      τ.slots = Function.update σ.slots m.slot.toUInt16 v := by
  obtain ⟨i, hi, hacts⟩ := h
  rw [show P[σ.pc]? = some i from hi, Option.some.injEq] at hstore
  subst hstore
  cases hacts with
  | other hk _ => cases hk
  | known _ hexec =>
    obtain ⟨pc, stack, slots⟩ := σ
    cases stack with
    | nil => cases hexec
    | cons v stack =>
      cases hexec
      exact ⟨v, rfl, rfl, rfl⟩

/-- What comes after the subject, if its arms are left as lowered arms are. -/
theorem course_of_computes {first rest : List Nat} {v : V} {ρ : State V} (hP : P.marks.Nodup)
    (hat : P.At n m.code) (harms : ∀ a ∈ m.arms, (a.taken m.done).Inward [m.done] ∧
      Code.fallsThrough (a.taken m.done) = false)
    (hv : m.Computes o P n σ first v ρ) (hrun : Run o P ρ rest τ)
    (hvisited : visited = first ++ (n + m.subject.length) :: rest) :
    Course o P m n σ visited τ := by
  obtain ⟨-, -, harmsAt, hdone⟩ := at_pieces hat
  have hknown := isKnown_testsFrom (o := o) (v := v) harmsAt
  have hpc := hv.pc
  obtain ⟨pc, stack, slots⟩ := ρ
  subst hpc
  have hslot : slots m.slot.toUInt16 = v := by
    obtain ⟨before, -, rfl⟩ := hv.run
    exact Function.update_self ..
  rcases decides (o := o) hP hat stack slots with ⟨k, a, hfirst, htests⟩ | ⟨hnone, htests⟩
  · rw [hslot] at hfirst htests
    rcases htests.compare hknown hrun with ⟨_, more, hseen, rfl⟩ | ⟨later, rfl, hlater⟩
    · exact .testing hv hvisited hseen
    · have htaken := at_taken hat hfirst.arm
      obtain ⟨hinward, hfalls⟩ := harms a (List.mem_of_getElem? hfirst.arm)
      have hpos : 0 < (a.taken m.done).length := by
        obtain ⟨last, hlast, -⟩ := Code.fallsThrough_eq_false.mp hfalls
        exact List.length_pos_of_mem (List.mem_of_getLast? hlast)
      have hentry : Code.Within (n + m.takenAt k a) (a.taken m.done) (n + m.takenAt k a) :=
        ⟨Nat.le_refl _, by omega⟩
      rcases hlater.leaves hinward hP htaken hentry with
        hall | ⟨inside, ρ, outside, rfl, henter, hinside, -, hafter, ⟨-, hend⟩ | ⟨l, hl, hmark⟩⟩
      · exact .inside hv hvisited hfirst hlater.head? hall
      · rw [hfalls] at hend
        cases hend
      · rw [List.mem_singleton.mp hl] at hmark
        refine .left hv (by rw [hvisited, List.append_assoc]) hfirst henter hinside ?_
        rw [← Code.mark_unique hP hmark hdone]
        exact hafter.head?
  · rw [hslot] at hnone htests
    rcases htests.compare hknown hrun with ⟨_, more, hseen, rfl⟩ | ⟨later, rfl, hlater⟩
    · exact .testing hv hvisited hseen
    · exact .passed hv hvisited hnone hlater.head?

/-- Every run that begins at the subject. -/
theorem course (hP : P.marks.Nodup) (hat : P.At n m.code) (hsubject : m.subject.Inward [])
    (harms : ∀ a ∈ m.arms, (a.taken m.done).Inward [m.done] ∧
      Code.fallsThrough (a.taken m.done) = false)
    (hσ : σ.pc = n) (h : Run o P σ visited τ) : Course o P m n σ visited τ := by
  obtain ⟨hsubjectAt, hstore, -, -⟩ := at_pieces hat
  have hwithin {k : Nat} (hk : Code.Within n m.subject k) :
      Code.Within n (m.subject ++ [m.store]) k :=
    ⟨hk.1, by have := hk.2; simp; omega⟩
  -- from the instruction that keeps the subject on
  have hkeep {first rest : List Nat} {ρ : State V} (hfirst : ∀ k ∈ first, Code.Within n m.subject k)
      (hrun : Run o P σ first ρ) (hpc : ρ.pc = n + m.subject.length) (hrest : Run o P ρ rest τ)
      (hvisited : visited = first ++ rest) : Course o P m n σ visited τ := by
    obtain ⟨trace, hrest, rfl⟩ := hrest
    cases hrest with
    | refl =>
      refine .subject ?_
      rw [hvisited, List.map_nil, List.append_nil, List.forall_mem_append]
      refine ⟨fun k hk => hwithin (hfirst k hk), ?_⟩
      simp [Code.Within, hpc]
    | @step _ ρ' _ trace hstep hrest =>
      obtain ⟨v, hstack, hpc', hslots⟩ := keeps (hpc ▸ hstore) hstep
      obtain ⟨pc, stack, slots⟩ := ρ
      subst hpc hstack
      have hv : m.Computes o P n σ first v ρ' :=
        ⟨⟨slots, hrun, hslots⟩, hfirst, by simp [armAt, hpc', Nat.add_assoc]⟩
      exact course_of_computes hP hat harms hv ⟨trace, hrest, rfl⟩ hvisited
  by_cases hempty : m.subject = []
  · exact hkeep (List.forall_mem_nil _) (.refl σ) (by simp [hempty, hσ]) h rfl
  · have hpos := List.length_pos_iff.mpr hempty
    rcases h.leaves hsubject hP hsubjectAt ⟨by omega, by omega⟩ with
      hall | ⟨first, ρ, rest, hvisited, -, hfirst, hrun, hrest, ⟨hpc, -⟩ | ⟨l, hl, -⟩⟩
    · exact .subject fun k hk => hwithin (hall k hk)
    · exact hkeep hfirst hrun hpc hrest hvisited
    · cases hl

end MatchCode

end Runs

/-- The first arm that accepts the subject is taken. A match that was lowered consists of the code
of its subject and of its arms, in order. Wherever it stands in a method, and whatever the oracles
say, every run from its beginning computes the subject once, makes the tests of the arms in order up
to the first that passes, and goes through that arm to the end of the statement, or there at once if
none passes. The tests themselves never fail: they lead to that arm, or to the end. -/
theorem lowerStmt_takes_first {cx : BodyContext} {span : Span} {subject : Expr} {arms : List Arm}
    {s t : LowerState} {code : Code}
    (h : lowerStmt cx (.matchType span subject arms) s = .ok code t) :
    ∃ m : MatchCode, m.code = code ∧ m.Of cx subject arms s t ∧
      ∀ (P : Code) (n : Nat), P.At n code → P.marks.Nodup → ∀ (V : Type) (o : Oracles V),
        (∀ σ visited τ, σ.pc = n → Run o P σ visited τ → Course o P m n σ visited τ) ∧
        ∀ stack slots,
          (∃ k a, First o (slots m.slot.toUInt16) m.arms k a ∧
            Run o P ⟨n + m.armAt 0, stack, slots⟩ (m.tests o (slots m.slot.toUInt16) n)
              ⟨n + m.takenAt k a, stack, slots⟩) ∨
          ((∀ a ∈ m.arms, a.accepts o (slots m.slot.toUInt16) = false) ∧
            Run o P ⟨n + m.armAt 0, stack, slots⟩ (m.tests o (slots m.slot.toUInt16) n)
              ⟨n + m.doneAt, stack, slots⟩) := by
  cases stmtRun_matchType h with
  | matchType hv hvv ha =>
    rename_i s₁ v a
    obtain ⟨as, rfl, has⟩ := exists_armsLowered ha
    let m : MatchCode := ⟨v.code ++ coerce v.type .object, s₁.body.nextSlot, as, s₁.body.nextLabel⟩
    refine ⟨m, rfl, ⟨v, s₁, hv, rfl, rfl, rfl, has⟩, fun P n hat hP V o =>
      ⟨fun σ visited τ hσ hrun => ?_, ?_⟩⟩
    · exact m.course hP hat ((lowerExpr_inward hv).coerced .object)
        (fun a ha => has.taken ha) hσ hrun
    · exact m.decides hP hat
  | nothing hn => cases hn

/-- `match n { [string] xs => return, int => n }` -/
def sampleMatch : Stmt :=
  .matchType {} (.ident ⟨.int, {}⟩ "n") [
    ⟨.list .string, "xs", ⟨2, [.ret {} (.empty ⟨.void, {}⟩)], {}⟩, {}⟩,
    ⟨.int, "", ⟨3, [.expr (.ident ⟨.int, {}⟩ "n")], {}⟩, {}⟩]

/-- The scopes of the arms are those after that of the body. -/
def armsContext : BodyContext := sampleContext [("n", .int)] [⟨some 1, []⟩, ⟨some 1, []⟩]

/-- The code of the sample. -/
def sampleCode : Code :=
  [.slot .iload 0, .invoke .invokestatic ⟨"java/lang/Integer", "valueOf", "(I)Ljava/lang/Integer;"⟩,
    .slot .astore 1, .slot .aload 1, .type .instanceof Library.listWrapper, .jump .ifeq 1,
    .slot .aload 1, .type .checkcast Library.listWrapper,
    .invoke .invokevirtual Library.wrapperName, .push (.text "string"),
    .invoke .invokevirtual Library.stringEquals, .jump .ifeq 1, .slot .aload 1,
    .type .checkcast Library.listWrapper, .slot .astore 2, .op .vreturn, .mark 1, .slot .aload 1,
    .type .instanceof "java/lang/Integer", .jump .ifeq 2, .slot .iload 0, .op .pop, .jump .goto 0,
    .mark 2, .mark 0]

/-- The sample, as a method of its own. -/
theorem lowerStmt_takes_first_sample :
    ∃ t m, lowerStmt armsContext sampleMatch (sampleState [("n", .int)]) = .ok sampleCode t ∧
      m.code = sampleCode ∧
      ∀ (V : Type) (o : Oracles V) (σ : State V) (visited : List Nat) (τ : State V), σ.pc = 0 →
        Run o sampleCode σ visited τ → Course o sampleCode m 0 σ visited τ := by
  have hlowered : ∃ t, lowerStmt armsContext sampleMatch (sampleState [("n", .int)]) =
      .ok sampleCode t := ⟨_, rfl⟩
  obtain ⟨t, ht⟩ := hlowered
  obtain ⟨m, hcode, -, hruns⟩ := lowerStmt_takes_first ht
  exact ⟨t, m, ht, hcode, fun V o => (hruns sampleCode 0 (Code.at_self _) (by decide) V o).1⟩

end ClassGen.Matching
