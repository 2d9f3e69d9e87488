import ClassGen.ClassFile.StackDepth
import ClassGen.Proofs.Fragment
import ClassGen.Proofs.StackKinds.Flow

/-! Where the kinds on the stack are known, the pass that measures its depth succeeds. -/

namespace ClassGen

open Kind

namespace FieldType

theorem slots_kind {t : FieldType} {k : Kind} (h : t.kind? = some k) : k.slots = t.slots := by
  cases t <;> cases h <;> rfl

theorem depth_kinds {ts : List FieldType} {ks : List Kind} (h : ts.mapM kind? = some ks) :
    depth ks = ts.foldr (fun t rest => t.slots + rest) 0 := by
  induction ts generalizing ks with
  | nil =>
    cases h
    rfl
  | cons t ts ih =>
    simp only [List.mapM_cons, Option.bind_eq_bind, Option.bind_eq_some_iff, Option.pure_def,
      Option.some.injEq] at h
    obtain ⟨k, hk, rest, hrest, rfl⟩ := h
    rw [depth_cons, slots_kind hk, ih hrest]
    rfl

end FieldType

namespace MethodDescriptor

theorem depth_argKinds {d : MethodDescriptor} {ks : List Kind} (h : d.argKinds? = some ks) :
    depth ks = d.argWidth := by
  obtain ⟨rest, hrest, rfl⟩ := Option.map_eq_some_iff.mp h
  rw [depth_reverse, FieldType.depth_kinds hrest]
  rfl

theorem depth_resultKinds {d : MethodDescriptor} {ks : List Kind} (h : d.resultKinds? = some ks) :
    depth ks = d.returnSlots := by
  unfold resultKinds? at h
  unfold returnSlots
  cases hret : d.ret with
  | none =>
    rw [hret] at h
    cases h
    rfl
  | some t =>
    rw [hret] at h
    obtain ⟨k, hk, rfl⟩ := Option.map_eq_some_iff.mp h
    simp [FieldType.slots_kind hk]

end MethodDescriptor

namespace Instr

variable {i : Instr} {shape : Shape}

/-- Depth that an instruction of this shape adds. -/
def net (shape : Shape) : Int := depth shape.left - depth shape.taken

theorem opEffect_of_shape {code : Opcode} (h : opShape? code = some shape) :
    opEffect code = net shape := by
  unfold opShape? at h
  split at h <;> cases h <;> rfl

theorem slotEffect_of_shape {code : Opcode} (h : slotShape? code = some shape) :
    slotEffect code = net shape := by
  unfold slotShape? at h
  split at h <;> cases h <;> rfl

theorem jumpEffect_of_taken {code : Opcode} {taken : List Kind} (h : jumpTaken? code = some taken) :
    jumpEffect code = net ⟨taken, []⟩ := by
  unfold jumpTaken? at h
  split at h <;> cases h <;> rfl

theorem fieldEffect_of_shape {code : Opcode} {k : Kind} (h : fieldShape? k code = some shape) :
    fieldEffect code k.slots = net shape := by
  unfold fieldShape? at h
  split at h <;> cases h <;> cases k <;> rfl

theorem invokeEffect_of_shape {code : Opcode} {d : MethodDescriptor} {args results : List Kind}
    (ha : d.argKinds? = some args) (hr : d.resultKinds? = some results)
    (h : invokeShape? args results code = some shape) : net shape ≤ invokeEffect code d := by
  have hargs := MethodDescriptor.depth_argKinds ha
  have hresults := MethodDescriptor.depth_resultKinds hr
  have hreceiver : depth (args ++ [ref]) = d.argWidth + 1 := by simp [hargs, slots]
  have hslots := d.argSlots_le
  unfold invokeShape? at h
  split at h <;> cases h
  · change (depth results : Int) - depth args ≤ d.returnSlots - d.argSlots.toNat - 0
    omega
  all_goals
    change (depth results : Int) - depth (args ++ [ref]) ≤ d.returnSlots - d.argSlots.toNat - 1
    omega

/-- The depth changes as the shape says. A call counts its arguments in sixteen bits, and so it
takes off no more than they are. -/
theorem stackEffect_of_shape (h : i.shape? = some shape) :
    ∃ effect, i.stackEffect = .ok effect ∧ net shape ≤ effect := by
  cases i with
  | op code => exact ⟨_, rfl, Int.le_of_eq (opEffect_of_shape h).symm⟩
  | push value => cases value <;> cases h <;> exact ⟨_, rfl, Int.le_refl _⟩
  | slot code index => exact ⟨_, rfl, Int.le_of_eq (slotEffect_of_shape h).symm⟩
  | jump code target =>
    obtain ⟨taken, htaken, rfl⟩ := Option.map_eq_some_iff.mp h
    exact ⟨_, rfl, Int.le_of_eq (jumpEffect_of_taken htaken).symm⟩
  | mark label =>
    cases h
    exact ⟨_, rfl, Int.le_refl _⟩
  | type code className =>
    simp only [shape?, typeShape?] at h
    split at h <;> cases h <;> exact ⟨_, rfl, Int.le_refl _⟩
  | field code target =>
    simp only [shape?, Option.bind_eq_bind, Option.bind_eq_some_iff] at h
    obtain ⟨t, ht, k, hk, h⟩ := h
    cases hparse : FieldType.parse target.descriptor with
    | error e => simp [hparse, Except.toOption] at ht
    | ok u =>
      obtain rfl : u = t := by simpa [hparse, Except.toOption] using ht
      simp only [stackEffect, hparse, Except.map]
      rw [← FieldType.slots_kind hk, fieldEffect_of_shape h]
      exact ⟨_, rfl, Int.le_refl _⟩
  | invoke code target =>
    simp only [shape?, Option.bind_eq_bind, Option.bind_eq_some_iff] at h
    obtain ⟨d, hd, args, ha, results, hr, h⟩ := h
    cases hparse : MethodDescriptor.parse target.descriptor with
    | error e => simp [hparse, Except.toOption] at hd
    | ok u =>
      obtain rfl : u = d := by simpa [hparse, Except.toOption] using hd
      simp only [stackEffect, hparse, Except.map]
      exact ⟨_, rfl, invokeEffect_of_shape ha hr h⟩

theorem opEffect_of_returned {code : Opcode} {ret : List Kind} (h : returned? code = some ret) :
    opEffect code = -(depth ret : Int) := by
  unfold returned? at h
  split at h <;> cases h <;> rfl

/-- An instruction that finds what it takes changes the depth at least as it changes the stack. -/
theorem stackEffect_of_retype {ret σ τ : List Kind} (h : i.retype? ret σ = some τ) :
    ∃ effect, i.stackEffect = .ok effect ∧ (depth τ : Int) ≤ depth σ + effect := by
  unfold retype? at h
  split at h
  · next shape hshape =>
    split at h <;> cases h
    next hprefix =>
    obtain ⟨rest, rfl⟩ := hprefix
    obtain ⟨effect, heffect, hnet⟩ := stackEffect_of_shape hshape
    refine ⟨effect, heffect, ?_⟩
    simp only [net, depth_append, List.drop_left] at hnet ⊢
    omega
  · split at h
    · next k rest =>
      split at h <;> cases h
      next hk =>
      refine ⟨-1, rfl, ?_⟩
      rw [depth_cons, hk]
      omega
    · next rest =>
      cases h
      refine ⟨-2, rfl, ?_⟩
      simp only [depth_cons, slots]
      omega
    · next k rest =>
      split at h <;> cases h
      next hk =>
      refine ⟨1, rfl, ?_⟩
      simp only [depth_cons, hk]
      omega
    · next code _ _ _ _ =>
      split at h <;> cases h
      next hret =>
      obtain ⟨hcode, rest, rfl⟩ := hret
      refine ⟨_, congrArg _ (opEffect_of_returned hcode), ?_⟩
      simp only [depth_append, List.drop_left]
      omega
    · cases h

end Instr

/-- The pass takes the stack for no less deep than the kinds say, here and at every label that it
has met. -/
structure DepthScan.Follows (ρ : Label → List Kind) (s : DepthScan) (f : Flow) : Prop where
  depth : ∀ σ, f.stack = some σ → Kind.depth σ ≤ s.depth
  behind : f.stack = none → s.reachable = false
  reached : ∀ l ∈ f.reached, s.atLabel[l]?.isSome
  known : ∀ (l : Label) (d : Int), s.atLabel[l]? = some d → Kind.depth (ρ l) ≤ d

namespace DepthScan

variable {ρ : Label → List Kind} {ret : List Kind} {s : DepthScan} {f g : Flow} {i : Instr}

theorem follows_mark {l : Label} (hs : s.Follows ρ f) (hl : l ∈ f.reached ∨ ρ l = [])
    (hσ : ∀ σ ∈ f.stack, σ = ρ l) : (s.mark l).Follows ρ ⟨some (ρ l), f.reached⟩ := by
  have hdepth : s.reachable = true → Kind.depth (ρ l) ≤ s.depth := by
    intro hr
    cases hstack : f.stack with
    | none => rw [hs.behind hstack] at hr; cases hr
    | some σ => exact hσ σ hstack ▸ hs.depth σ hstack
  unfold mark
  cases hat : s.atLabel[l]? with
  | some d =>
    cases hr : s.reachable with
    | true => exact ⟨fun σ h => by cases h; exact hdepth hr, nofun, hs.reached, hs.known⟩
    | false => exact ⟨fun σ h => by cases h; exact hs.known l d hat, nofun, hs.reached, hs.known⟩
  | none =>
    cases hr : s.reachable with
    | true =>
      refine ⟨fun σ h => by cases h; exact hdepth hr, nofun, fun k hk => ?_, fun k d hk => ?_⟩
      · simp only [Std.TreeMap.getElem?_insert]
        split
        · rfl
        · exact hs.reached k hk
      · simp only [Std.TreeMap.getElem?_insert] at hk
        split at hk
        · next heq =>
          obtain rfl : l = k := by simpa using heq
          cases hk
          exact hdepth hr
        · exact hs.known k d hk
    | false =>
      have hempty : ρ l = [] := by
        rcases hl with hl | hl
        · have := hs.reached l hl
          rw [hat] at this
          cases this
        · exact hl
      exact ⟨fun σ h => by cases h; rw [hempty]; exact Int.le_refl _, nofun, hs.reached, hs.known⟩

/-- An instruction that is no label, if it finds what it takes. -/
theorem step_of_retype {σ τ : List Kind} (method : String) (hs : s.Follows ρ f)
    (hi : i.mark? = none) (hσ : f.stack = some σ) (hτ : i.retype? ret σ = some τ) :
    ∃ depth : Int, Kind.depth τ ≤ depth ∧ s.step method i = .ok
      { depth
        deepest := max s.deepest depth
        reachable := s.reachable && !i.isTerminal
        atLabel :=
          match i with
          | .jump _ target => s.atLabel.insertIfNew target depth
          | _ => s.atLabel } := by
  obtain ⟨effect, heffect, hdepth⟩ := Instr.stackEffect_of_retype hτ
  have hfound := hs.depth σ hσ
  have hnonneg : ¬ s.depth + effect < 0 := by omega
  refine ⟨s.depth + effect, by omega, ?_⟩
  unfold step
  split
  · cases hi
  · simp only [heffect]
    rw [if_neg hnonneg]
    cases i <;> rfl

/-- What one instruction does to the kinds it does to the depth. -/
theorem follows_step (method : String) (hs : s.Follows ρ f) (h : f.step ρ ret i = some g) :
    ∃ t, s.step method i = .ok t ∧ t.Follows ρ g := by
  cases i with
  | mark l =>
    simp only [Flow.step] at h
    split at h <;> cases h
    next hcond => exact ⟨_, rfl, follows_mark hs hcond.1 hcond.2⟩
  | jump code l =>
    simp only [Flow.step] at h
    split at h
    · next τ hτ =>
      split at h <;> cases h
      next hl =>
      obtain ⟨σ, hσ, hτ⟩ := Option.bind_eq_some_iff.mp hτ
      obtain ⟨depth, hdepth, hstep⟩ := step_of_retype method hs rfl hσ hτ
      refine ⟨_, hstep, ?_, ?_, ?_, ?_⟩
      · intro υ hυ
        simp only at hυ
        split at hυ <;> cases hυ
        exact hdepth
      · intro hnone
        simp only at hnone
        split at hnone
        · next hterm => simp [Instr.isTerminal, Instr.opcode?, hterm]
        · cases hnone
      · intro k hk
        simp only [Std.TreeMap.getElem?_insertIfNew]
        split
        · rfl
        · next hmem =>
          rcases List.mem_cons.mp hk with rfl | hk
          · simpa using hmem
          · exact hs.reached k hk
      · intro k d hk
        simp only [Std.TreeMap.getElem?_insertIfNew] at hk
        split at hk
        · next hmem =>
          obtain rfl : l = k := by simpa using hmem.1
          cases hk
          exact hl ▸ hdepth
        · exact hs.known k d hk
    · cases h
  | _ =>
    simp only [Flow.step] at h
    obtain ⟨τ, hτ, rfl⟩ := Option.map_eq_some_iff.mp h
    obtain ⟨σ, hσ, hτ⟩ := Option.bind_eq_some_iff.mp hτ
    obtain ⟨depth, hdepth, hstep⟩ := step_of_retype method hs rfl hσ hτ
    exact ⟨_, hstep, fun υ hυ => by cases hυ; exact hdepth, by simp, hs.reached, hs.known⟩

theorem follows_run {c : Code} (method : String) (hs : s.Follows ρ f)
    (h : Flow.run ρ ret c f = some g) : ∃ t, run method s c = .ok t ∧ t.Follows ρ g := by
  induction c generalizing s f with
  | nil =>
    cases h
    exact ⟨s, rfl, hs⟩
  | cons i c ih =>
    obtain ⟨m, hm, h⟩ := Option.bind_eq_some_iff.mp h
    obtain ⟨r, hr, hrm⟩ := follows_step method hs hm
    obtain ⟨t, ht, htg⟩ := ih hrm h
    exact ⟨t, by simp only [run, hr, ht], htg⟩

end DepthScan

/-- Of code along which the kinds are known, the depth is measured unless it is beyond bounds. -/
theorem maxStack_of_run {m : Method} {ρ : Label → List Kind} {ret : List Kind} {f : Flow}
    (h : Flow.run ρ ret m.code ⟨some [], []⟩ = some f) :
    (∃ n, m.maxStack = .ok n) ∨ m.maxStack = .error (.codeTooLarge m.name) := by
  have hstart : DepthScan.Follows ρ {} ⟨some [], []⟩ :=
    ⟨fun σ h => by cases h; exact Int.le_refl _, nofun, nofun, fun l d h => by simp at h⟩
  obtain ⟨t, ht, -⟩ := DepthScan.follows_run m.name hstart h
  unfold Method.maxStack
  rw [ht]
  by_cases hdeep : t.deepest > 65535
  · exact .inr (if_pos hdeep)
  · exact .inl ⟨_, if_neg hdeep⟩

end ClassGen
