import ClassGen.Proofs.Linking.Trail
import ClassGen.Scope.Prelude

/-! Blocks that are nested as their scopes are: the scope of each is a child of the one around it,
so that no scope of a block is among those around it. -/

namespace ClassGen

namespace ScopeTree

variable {t : ScopeTree} {id other p : ScopeId} {n m : Nat}

/-- The scope is `n` steps inside one that has no parent. -/
inductive Depth (t : ScopeTree) : ScopeId → Nat → Prop
  | root {id : ScopeId} (h : t.parent? id = none) : Depth t id 0
  | child {id p : ScopeId} {n : Nat} (hp : t.parent? id = some p) (h : Depth t p n) :
      Depth t id (n + 1)

theorem Depth.unique (h : t.Depth id n) (h' : t.Depth id m) : n = m := by
  induction h generalizing m with
  | root hroot =>
    cases h' with
    | root => rfl
    | child hp _ =>
      rw [hroot] at hp
      cases hp
  | child hp _ ih =>
    cases h' with
    | root hroot =>
      rw [hroot] at hp
      cases hp
    | child hp' h' =>
      rw [hp] at hp'
      cases hp'
      rw [ih h']

/-- Scopes around it are no deeper. -/
theorem Depth.of_mem_chainWithin {fuel : Nat} (h : t.Depth id n)
    (hmem : other ∈ t.chainWithin fuel id) : ∃ m ≤ n, t.Depth other m := by
  induction fuel generalizing id n with
  | zero =>
    rw [chainWithin, List.mem_singleton] at hmem
    exact ⟨n, Nat.le_refl n, hmem ▸ h⟩
  | succ fuel ih =>
    rw [chainWithin] at hmem
    cases h with
    | root hroot =>
      rw [hroot, List.mem_singleton] at hmem
      exact ⟨0, Nat.le_refl 0, hmem ▸ .root hroot⟩
    | child hp h =>
      rw [hp] at hmem
      rcases List.mem_cons.mp hmem with rfl | hmem
      · exact ⟨_, Nat.le_refl _, .child hp h⟩
      · obtain ⟨m, hm, hother⟩ := ih h hmem
        exact ⟨m, by omega, hother⟩

theorem Depth.notMem_chain (h : t.Depth id n) (h' : t.Depth other m) (hlt : n < m) :
    other ∉ t.chain id := by
  intro hmem
  obtain ⟨k, hk, hother⟩ := h.of_mem_chainWithin hmem
  have := hother.unique h'
  omega

theorem mem_chainWithin_succ {fuel : Nat} (h : other ∈ t.chainWithin fuel id) :
    other ∈ t.chainWithin (fuel + 1) id := by
  induction fuel generalizing id with
  | zero =>
    rw [chainWithin, List.mem_singleton] at h
    rw [chainWithin]
    split <;> simp [h]
  | succ fuel ih =>
    rw [chainWithin] at h ⊢
    cases hp : t.parent? id with
    | none => rwa [hp] at h
    | some p =>
      rw [hp] at h
      rcases List.mem_cons.mp h with rfl | h
      · exact List.mem_cons_self
      · exact List.mem_cons_of_mem _ (ih h)

theorem self_mem_chain : id ∈ t.chain id := by
  unfold chain
  cases t.size with
  | zero => simp [chainWithin]
  | succ fuel =>
    rw [chainWithin]
    split <;> simp

/-- Around a child are the child and what is around its parent. -/
theorem mem_chain_child (hp : t.parent? id = some p) (h : other ∈ t.chain id) :
    other = id ∨ other ∈ t.chain p := by
  unfold chain at h ⊢
  cases hsize : t.size with
  | zero =>
    rw [hsize, chainWithin, List.mem_singleton] at h
    exact .inl h
  | succ fuel =>
    rw [hsize, chainWithin, hp] at h
    exact (List.mem_cons.mp h).imp_right mem_chainWithin_succ

theorem parent?_define (t : ScopeTree) (scope : ScopeId) (name : String) (type : Ty)
    (id : ScopeId) : (t.define scope name type).parent? id = t.parent? id := by
  unfold define parent?
  rw [Array.getElem?_modify]
  split_ifs
  · cases t.scopes[id]? <;> rfl
  · rfl

theorem parent?_bindAll (sigs : List Signature) (t : ScopeTree) (scope id : ScopeId) :
    (Prelude.bindAll sigs t scope).parent? id = t.parent? id := by
  unfold Prelude.bindAll
  induction sigs generalizing t with
  | nil => rfl
  | cons sig rest ih =>
    rw [List.foldl_cons, ih]
    split_ifs
    · rfl
    · exact parent?_define ..

end ScopeTree

/-! ### Blocks -/

/-- Declares a variable itself, not in a block of its own. -/
def Stmt.declares : Stmt → Bool
  | .var _ _ _ => true
  | .exported inner => inner.declares
  | _ => false

mutual

/-- Scopes of the blocks of a statement, functions inside it apart. -/
@[simp] def Stmt.scopes : Stmt → List ScopeId
  | .ifElse _ _ body none => body.scopes
  | .ifElse _ _ body (some branch) => body.scopes ++ branch.scopes
  | .whileLoop _ _ body | .forEach _ _ _ body | .block body => body.scopes
  | .matchType _ _ arms => scopesOfArms arms
  | .exported inner => inner.scopes
  | .expr _ | .var _ _ _ | .function _ | .struct _ _ | .ret _ _ | .use _ _
  | .typeAlias _ _ | .unionType _ _ | .enum _ _
  | .parameter _ _ => []

@[simp] def Block.scopes : Block → List ScopeId
  | ⟨scope, body, _⟩ => scope :: scopesOf body

@[simp] def scopesOf : List Stmt → List ScopeId
  | [] => []
  | first :: rest => first.scopes ++ scopesOf rest

@[simp] def scopesOfArms : List Arm → List ScopeId
  | [] => []
  | ⟨_, _, body, _⟩ :: rest => body.scopes ++ scopesOfArms rest

end

mutual

/-- In a statement of `scope` the scope of each block is a child of the one in force where the block
stands. Functions inside the statement are bodies of their own. -/
@[simp] def Stmt.isLexical (parent? : ScopeId → Option ScopeId) (scope : ScopeId) : Stmt → Bool
  | .ifElse _ _ body none => body.isLexical parent? scope
  | .ifElse _ _ body (some branch) => body.isLexical parent? scope && branch.isLexical parent? scope
  | .whileLoop _ _ body | .forEach _ _ _ body | .block body => body.isLexical parent? scope
  | .matchType _ _ arms => armsLexical parent? scope arms
  | .exported inner => inner.isLexical parent? scope
  | .expr _ | .var _ _ _ | .function _ | .struct _ _ | .ret _ _ | .use _ _
  | .typeAlias _ _ | .unionType _ _ | .enum _ _
  | .parameter _ _ => true

@[simp] def Block.isLexical (parent? : ScopeId → Option ScopeId) (scope : ScopeId) : Block → Bool
  | ⟨id, body, _⟩ => parent? id == some scope && stmtsLexical parent? id body

@[simp] def stmtsLexical (parent? : ScopeId → Option ScopeId) (scope : ScopeId) : List Stmt → Bool
  | [] => true
  | first :: rest => first.isLexical parent? scope && stmtsLexical parent? scope rest

@[simp] def armsLexical (parent? : ScopeId → Option ScopeId) (scope : ScopeId) : List Arm → Bool
  | [] => true
  | ⟨_, _, body, _⟩ :: rest => body.isLexical parent? scope && armsLexical parent? scope rest

end

mutual

/-- In a statement of `scope`, and in the functions inside it, the scope of each block is a child of
the one around it, and no else branch declares a variable. -/
@[simp] def Stmt.isNested (parent? : ScopeId → Option ScopeId) (scope : ScopeId) : Stmt → Bool
  | .function ⟨_, body, _⟩ => body.isNested parent? scope
  | .ifElse _ _ body none => body.isNested parent? scope
  | .ifElse _ _ body (some branch) => body.isNested parent? scope &&
      branch.isNested parent? scope && !branch.declares
  | .whileLoop _ _ body | .forEach _ _ _ body | .block body => body.isNested parent? scope
  | .matchType _ _ arms => armsNested parent? scope arms
  | .exported inner => inner.isNested parent? scope
  | .expr _ | .var _ _ _ | .struct _ _ | .ret _ _ | .use _ _ | .typeAlias _ _
  | .unionType _ _ | .enum _ _
  | .parameter _ _ => true

@[simp] def Block.isNested (parent? : ScopeId → Option ScopeId) (scope : ScopeId) : Block → Bool
  | ⟨id, body, _⟩ => parent? id == some scope && stmtsNested parent? id body

@[simp] def stmtsNested (parent? : ScopeId → Option ScopeId) (scope : ScopeId) : List Stmt → Bool
  | [] => true
  | first :: rest => first.isNested parent? scope && stmtsNested parent? scope rest

@[simp] def armsNested (parent? : ScopeId → Option ScopeId) (scope : ScopeId) : List Arm → Bool
  | [] => true
  | ⟨_, _, body, _⟩ :: rest => body.isNested parent? scope && armsNested parent? scope rest

end

theorem Block.scopes_eq (b : Block) : b.scopes = b.scope :: scopesOf b.body := by
  cases b
  rw [Block.scopes]

theorem Block.isNested_iff {parent? : ScopeId → Option ScopeId} {scope : ScopeId} {b : Block} :
    b.isNested parent? scope = true ↔ parent? b.scope = some scope ∧
      stmtsNested parent? b.scope b.body = true := by
  cases b
  rw [Block.isNested, Bool.and_eq_true, beq_iff_eq]

theorem Block.isLexical_iff {parent? : ScopeId → Option ScopeId} {scope : ScopeId} {b : Block} :
    b.isLexical parent? scope = true ↔ parent? b.scope = some scope ∧
      stmtsLexical parent? b.scope b.body = true := by
  cases b
  rw [Block.isLexical, Bool.and_eq_true, beq_iff_eq]

section Lexical

variable {parent? : ScopeId → Option ScopeId}

mutual

/-- Blocks that are nested are lexical. -/
theorem Stmt.lexical {scope : ScopeId} : ∀ {st : Stmt}, st.isNested parent? scope = true →
    st.isLexical parent? scope = true
  | .ifElse _ _ body none, h | .whileLoop _ _ body, h
  | .forEach _ _ _ body, h | .block body, h => by
    rw [Stmt.isNested] at h
    rw [Stmt.isLexical]
    exact body.lexical h
  | .ifElse _ _ body (some branch), h => by
    rw [Stmt.isNested, Bool.and_eq_true, Bool.and_eq_true] at h
    rw [Stmt.isLexical, Bool.and_eq_true]
    exact ⟨body.lexical h.1.1, Stmt.lexical h.1.2⟩
  | .matchType _ _ arms, h => by
    rw [Stmt.isNested] at h
    rw [Stmt.isLexical]
    exact arms_lexical h
  | .exported inner, h => by
    rw [Stmt.isNested] at h
    rw [Stmt.isLexical]
    exact Stmt.lexical h
  | .expr _, _ | .var _ _ _, _ | .function _, _ | .struct _ _, _ | .ret _ _, _
  | .use _ _, _ | .typeAlias _ _, _
  | .unionType _ _, _ | .enum _ _, _ | .parameter _ _, _ => by rw [Stmt.isLexical]

theorem Block.lexical {scope : ScopeId} : ∀ b : Block, b.isNested parent? scope = true →
    b.isLexical parent? scope = true
  | ⟨_, _, _⟩, h => by
    rw [Block.isNested, Bool.and_eq_true] at h
    rw [Block.isLexical, Bool.and_eq_true]
    exact ⟨h.1, stmts_lexical h.2⟩

theorem stmts_lexical {scope : ScopeId} : ∀ {body : List Stmt},
    stmtsNested parent? scope body = true →
    stmtsLexical parent? scope body = true
  | [], _ => by rw [stmtsLexical]
  | _ :: _, h => by
    rw [stmtsNested, Bool.and_eq_true] at h
    rw [stmtsLexical, Bool.and_eq_true]
    exact ⟨Stmt.lexical h.1, stmts_lexical h.2⟩

theorem arms_lexical {scope : ScopeId} : ∀ {arms : List Arm}, armsNested parent? scope arms = true →
    armsLexical parent? scope arms = true
  | [], _ => by rw [armsLexical]
  | ⟨_, _, body, _⟩ :: _, h => by
    rw [armsNested, Bool.and_eq_true] at h
    rw [armsLexical, Bool.and_eq_true]
    exact ⟨body.lexical h.1, arms_lexical h.2⟩

end

end Lexical

section Deeper

variable {t : ScopeTree}

mutual

/-- Blocks are deeper than the scope they stand in. -/
theorem Stmt.deeper {scope : ScopeId} {n : Nat} (hd : t.Depth scope n) : ∀ {st : Stmt},
    st.isLexical t.parent? scope = true →
    ∀ id ∈ st.scopes, ∃ m, n < m ∧ t.Depth id m
  | .ifElse _ _ body none, h, id, hid => by
    rw [Stmt.isLexical] at h
    rw [Stmt.scopes] at hid
    exact body.deeper hd h id hid
  | .ifElse _ _ body (some branch), h, id, hid => by
    rw [Stmt.isLexical, Bool.and_eq_true] at h
    rw [Stmt.scopes] at hid
    rcases List.mem_append.mp hid with hid | hid
    · exact body.deeper hd h.1 id hid
    · exact Stmt.deeper hd h.2 id hid
  | .whileLoop _ _ body, h, id, hid | .forEach _ _ _ body, h, id, hid
  | .block body, h, id, hid => by
    rw [Stmt.isLexical] at h
    rw [Stmt.scopes] at hid
    exact body.deeper hd h id hid
  | .matchType _ _ arms, h, id, hid => by
    rw [Stmt.isLexical] at h
    rw [Stmt.scopes] at hid
    exact arms_deeper hd h id hid
  | .exported inner, h, id, hid => by
    rw [Stmt.isLexical] at h
    rw [Stmt.scopes] at hid
    exact Stmt.deeper hd h id hid
  | .expr _, h, id, hid | .var _ _ _, h, id, hid | .function _, h, id, hid | .struct _ _, h, id, hid
  | .ret _ _, h, id, hid | .use _ _, h, id, hid
  | .typeAlias _ _, h, id, hid | .unionType _ _, h, id, hid
  | .enum _ _, h, id, hid | .parameter _ _, h, id, hid => by
    rw [Stmt.scopes] at hid
    cases hid

theorem Block.deeper {scope : ScopeId} {n : Nat} (hd : t.Depth scope n) : ∀ b :
    Block, b.isLexical t.parent? scope = true →
    ∀ id ∈ b.scopes, ∃ m, n < m ∧ t.Depth id m
  | ⟨inner, body, _⟩, h, id, hid => by
    rw [Block.isLexical, Bool.and_eq_true, beq_iff_eq] at h
    rw [Block.scopes] at hid
    have hinner : t.Depth inner (n + 1) := .child h.1 hd
    rcases List.mem_cons.mp hid with rfl | hid
    · exact ⟨n + 1, Nat.lt_succ_self n, hinner⟩
    · obtain ⟨m, hm, hdepth⟩ := stmts_deeper hinner h.2 id hid
      exact ⟨m, by omega, hdepth⟩

theorem stmts_deeper {scope : ScopeId} {n : Nat} (hd : t.Depth scope n) : ∀ {body : List Stmt},
    stmtsLexical t.parent? scope body = true → ∀ id ∈ scopesOf body, ∃ m, n < m ∧ t.Depth id m
  | [], _, id, hid => by
    rw [scopesOf] at hid
    cases hid
  | first :: rest, h, id, hid => by
    rw [stmtsLexical, Bool.and_eq_true] at h
    rw [scopesOf] at hid
    rcases List.mem_append.mp hid with hid | hid
    · exact Stmt.deeper hd h.1 id hid
    · exact stmts_deeper hd h.2 id hid

theorem arms_deeper {scope : ScopeId} {n : Nat} (hd : t.Depth scope n) : ∀ {arms : List Arm},
    armsLexical t.parent? scope arms = true → ∀ id ∈ scopesOfArms arms, ∃ m, n < m ∧ t.Depth id m
  | [], _, id, hid => by
    rw [scopesOfArms] at hid
    cases hid
  | ⟨_, _, body, _⟩ :: rest, h, id, hid => by
    rw [armsLexical, Bool.and_eq_true] at h
    rw [scopesOfArms] at hid
    rcases List.mem_append.mp hid with hid | hid
    · exact body.deeper hd h.1 id hid
    · exact arms_deeper hd h.2 id hid

end

end Deeper

/-! ### Functions inside functions -/

/-- The function is nested in its scope, and around that are finitely many. -/
def Declaration.Nested (t : ScopeTree) (d : Declaration) : Prop :=
  d.decl.body.isNested t.parent? d.scope = true ∧ ∃ n, t.Depth d.scope n

section Declarations

variable {t : ScopeTree}

mutual

theorem Stmt.declarations_nested {scope : ScopeId} {n : Nat} (hd : t.Depth scope n) : ∀ {st : Stmt},
    st.isNested t.parent? scope = true → ∀ d ∈ st.declarations scope, d.Nested t
  | .function ⟨name, body, span⟩, h, d, hmem => by
    rw [Stmt.isNested] at h
    rw [Stmt.declarations] at hmem
    rcases List.mem_cons.mp hmem with rfl | hmem
    · exact ⟨h, n, hd⟩
    · exact body.declarations_nested hd h d hmem
  | .ifElse _ _ body none, h, d, hmem => by
    rw [Stmt.isNested] at h
    rw [Stmt.declarations] at hmem
    exact body.declarations_nested hd h d hmem
  | .ifElse _ _ body (some branch), h, d, hmem => by
    rw [Stmt.isNested, Bool.and_eq_true, Bool.and_eq_true] at h
    rw [Stmt.declarations] at hmem
    rcases List.mem_append.mp hmem with hmem | hmem
    · exact body.declarations_nested hd h.1.1 d hmem
    · exact Stmt.declarations_nested hd h.1.2 d hmem
  | .whileLoop _ _ body, h, d, hmem | .forEach _ _ _ body, h, d, hmem
  | .block body, h, d, hmem => by
    rw [Stmt.isNested] at h
    rw [Stmt.declarations] at hmem
    exact body.declarations_nested hd h d hmem
  | .matchType _ _ arms, h, d, hmem => by
    rw [Stmt.isNested] at h
    rw [Stmt.declarations] at hmem
    exact arms_declarations_nested hd h d hmem
  | .exported inner, h, d, hmem => by
    rw [Stmt.isNested] at h
    rw [Stmt.declarations] at hmem
    exact Stmt.declarations_nested hd h d hmem
  | .expr _, _, _, hmem | .var _ _ _, _, _, hmem | .struct _ _, _, _, hmem | .ret _ _, _, _, hmem
  | .use _ _, _, _, hmem | .typeAlias _ _, _, _, hmem
  | .unionType _ _, _, _, hmem | .enum _ _, _, _, hmem
  | .parameter _ _, _, _, hmem => nomatch hmem

theorem Block.declarations_nested {scope : ScopeId} {n : Nat} (hd : t.Depth scope n) : ∀ b : Block,
    b.isNested t.parent? scope = true → ∀ d ∈ b.declarations, d.Nested t
  | ⟨inner, body, _⟩, h, d, hmem => by
    rw [Block.isNested, Bool.and_eq_true, beq_iff_eq] at h
    rw [Block.declarations] at hmem
    exact stmts_declarations_nested (.child h.1 hd) h.2 d hmem

theorem stmts_declarations_nested {scope : ScopeId} {n : Nat} (hd : t.Depth scope n) :
    ∀ {body : List Stmt}, stmtsNested t.parent? scope body = true →
      ∀ d ∈ declarationsOf scope body, d.Nested t
  | [], _, d, hmem => by
    rw [declarationsOf] at hmem
    cases hmem
  | first :: rest, h, d, hmem => by
    rw [stmtsNested, Bool.and_eq_true] at h
    rw [declarationsOf] at hmem
    rcases List.mem_append.mp hmem with hmem | hmem
    · exact Stmt.declarations_nested hd h.1 d hmem
    · exact stmts_declarations_nested hd h.2 d hmem

theorem arms_declarations_nested {scope : ScopeId} {n : Nat} (hd : t.Depth scope n) :
    ∀ {arms : List Arm}, armsNested t.parent? scope arms = true →
      ∀ d ∈ declarationsOfArms arms, d.Nested t
  | [], _, d, hmem => by
    rw [declarationsOfArms] at hmem
    cases hmem
  | ⟨_, _, body, _⟩ :: rest, h, d, hmem => by
    rw [armsNested, Bool.and_eq_true] at h
    rw [declarationsOfArms] at hmem
    rcases List.mem_append.mp hmem with hmem | hmem
    · exact body.declarations_nested hd h.1 d hmem
    · exact arms_declarations_nested hd h.2 d hmem

end

end Declarations

end ClassGen
