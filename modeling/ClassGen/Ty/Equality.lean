import ClassGen.Ty.Basic

/-! Equality of types is structural and decidable. Two struct types are equal when
their definitions and their bindings are. -/

namespace ClassGen

mutual

def Ty.beq : Ty → Ty → Bool
  | .primitive a, .primitive b => a == b
  | .struct d bs, .struct e cs => d.beq e && Bindings.beq bs cs
  | .union ts, .union us => Ty.beqAll ts us
  | .generic a, .generic b => a == b
  | .external a, .external b => a == b
  | .function f, .function g => f.beq g
  | .list t, .list u => t.beq u
  | _, _ => false

def Ty.beqAll : List Ty → List Ty → Bool
  | [], [] => true
  | t :: ts, u :: us => t.beq u && Ty.beqAll ts us
  | _, _ => false

def Bindings.beq : List (String × Ty) → List (String × Ty) → Bool
  | [], [] => true
  | (a, t) :: bs, (b, u) :: cs => a == b && t.beq u && Bindings.beq bs cs
  | _, _ => false

def StructDef.beq : StructDef → StructDef → Bool
  | ⟨n, q, fs⟩, ⟨m, p, gs⟩ => n == m && q == p && Bindings.beq fs gs

def Signature.beq : Signature → Signature → Bool
  | ⟨n, ps, r, l⟩, ⟨m, qs, s, k⟩ => n == m && Bindings.beq ps qs && r.beq s && l == k

end

mutual

theorem Ty.beq_iff : ∀ t u : Ty, t.beq u = true ↔ t = u
  | .primitive a, u => by cases u <;> simp [Ty.beq]
  | .struct d bs, u => by cases u <;> simp [Ty.beq, StructDef.beq_iff d, Bindings.beq_iff bs]
  | .union ts, u => by cases u <;> simp [Ty.beq, Ty.beqAll_iff ts]
  | .generic a, u => by cases u <;> simp [Ty.beq]
  | .external a, u => by cases u <;> simp [Ty.beq]
  | .function f, u => by cases u <;> simp [Ty.beq, Signature.beq_iff f]
  | .list t, u => by cases u <;> simp [Ty.beq, Ty.beq_iff t]

theorem Ty.beqAll_iff : ∀ ts us : List Ty, Ty.beqAll ts us = true ↔ ts = us
  | [], us => by cases us <;> simp [Ty.beqAll]
  | t :: ts, us => by cases us <;> simp [Ty.beqAll, Ty.beq_iff t, Ty.beqAll_iff ts]

theorem Bindings.beq_iff : ∀ bs cs : List (String × Ty), Bindings.beq bs cs = true ↔ bs = cs
  | [], cs => by cases cs <;> simp [Bindings.beq]
  | (a, t) :: bs, cs => by
    cases cs with
    | nil => simp [Bindings.beq]
    | cons c cs => cases c; simp [Bindings.beq, Ty.beq_iff t, Bindings.beq_iff bs]

theorem StructDef.beq_iff : ∀ d e : StructDef, d.beq e = true ↔ d = e
  | ⟨n, q, fs⟩, ⟨m, p, gs⟩ => by simp [StructDef.beq, Bindings.beq_iff fs, and_assoc]

theorem Signature.beq_iff : ∀ f g : Signature, f.beq g = true ↔ f = g
  | ⟨n, ps, r, l⟩, ⟨m, qs, s, k⟩ => by
    simp [Signature.beq, Bindings.beq_iff ps, Ty.beq_iff r, and_assoc]

end

instance : DecidableEq Ty := fun t u => decidable_of_iff _ (Ty.beq_iff t u)

instance : DecidableEq StructDef := fun d e => decidable_of_iff _ (StructDef.beq_iff d e)

instance : DecidableEq Signature := fun f g => decidable_of_iff _ (Signature.beq_iff f g)

end ClassGen
