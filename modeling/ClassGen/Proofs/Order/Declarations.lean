import ClassGen.Proofs.Order.Runs

/-! The declarations at the top of a file, where no function or struct is declared inside another.
Each leaves something of its own: a method, a generic function that waits, or the unit of a struct.
-/

namespace ClassGen

open Run
open Faithful (after after_ok)

variable {file : FileContext} {s t : LowerState} {st : Stmt} {stmts : List Stmt} {tr : Trail}

mutual

theorem Stmt.declarations_of_flat : ∀ {st : Stmt} {scope : ScopeId},
    st.isFlat = true → st.declarations scope = []
  | .ifElse _ _ body none, _, h => by
    rw [Stmt.isFlat] at h
    rw [Stmt.declarations]
    exact Block.declarations_of_flat h
  | .ifElse _ _ body (some branch), _, h => by
    rw [Stmt.isFlat, Bool.and_eq_true] at h
    rw [Stmt.declarations, Block.declarations_of_flat h.1, Stmt.declarations_of_flat h.2,
      List.append_nil]
  | .whileLoop _ _ body, _, h | .forEach _ _ _ body, _, h | .block body, _, h => by
    rw [Stmt.isFlat] at h
    rw [Stmt.declarations]
    exact Block.declarations_of_flat h
  | .matchType _ _ arms, _, h => by
    rw [Stmt.isFlat] at h
    rw [Stmt.declarations]
    exact declarationsOfArms_of_flat h
  | .exported inner, _, h => by
    rw [Stmt.isFlat] at h
    rw [Stmt.declarations]
    exact Stmt.declarations_of_flat h
  | .expr _, _, _ | .var _ _ _, _, _ | .ret _ _, _, _ | .use _ _, _, _
  | .typeAlias _ _, _, _ | .unionType _ _, _, _
  | .enum _ _, _, _ | .parameter _ _, _, _ => rfl

theorem Block.declarations_of_flat : ∀ {b : Block}, b.isFlat = true → b.declarations = []
  | ⟨_, body, _⟩, h => by
    rw [Block.isFlat] at h
    rw [Block.declarations]
    exact declarationsOf_of_flat h

theorem declarationsOf_of_flat : ∀ {body : List Stmt} {scope : ScopeId},
    stmtsFlat body = true → declarationsOf scope body = []
  | [], _, _ => rfl
  | first :: rest, _, h => by
    rw [stmtsFlat, Bool.and_eq_true] at h
    rw [declarationsOf, Stmt.declarations_of_flat h.1, declarationsOf_of_flat h.2, List.append_nil]

theorem declarationsOfArms_of_flat : ∀ {arms : List Arm},
    armsFlat arms = true → declarationsOfArms arms = []
  | [], _ => rfl
  | ⟨_, _, body, _⟩ :: rest, h => by
    rw [armsFlat, Bool.and_eq_true] at h
    rw [declarationsOfArms, Block.declarations_of_flat h.1, declarationsOfArms_of_flat h.2,
      List.append_nil]

end

theorem declarationsOf_eq (scope : ScopeId) (stmts : List Stmt) :
    declarationsOf scope stmts = stmts.flatMap (Stmt.declarations scope) := by
  induction stmts with
  | nil => rfl
  | cons first rest ih => rw [declarationsOf, List.flatMap_cons, ih]

/-! ### Structs -/

/-- The unit of the struct, if its methods can be framed. -/
def StructDef.unit? (file : FileContext) (d : StructDef) : Option ClassUnit :=
  after (d.unit file) {} none fun unit _ => unit

theorem StructDef.unit?_eq_some {d : StructDef} {unit : ClassUnit} :
    d.unit? file = some unit ↔ d.unit file s = .ok unit s := by
  have hsame : d.unit file {} = .ok unit {} ↔ d.unit file s = .ok unit s := by
    rw [StructDef.unit_ok, StructDef.unit_ok, and_iff_left rfl, and_iff_left rfl]
  rw [← hsame, unit?, after]
  cases h : d.unit file {} with
  | error e t => simp
  | ok found t => simp [← (StructDef.unit_ok.mp h).2]

theorem StructDef.unit?_name {d : StructDef} {unit : ClassUnit} (h : d.unit? file = some unit) :
    unit.name = d.qualifiedName := by
  obtain ⟨⟨_, _, -, -, rfl⟩, -⟩ := StructDef.unit_ok.mp ((StructDef.unit?_eq_some (s := {})).mp h)
  rfl

/-- The struct that is declared at the top of a file. -/
@[simp] def Stmt.struct? (file : FileContext) : Stmt → Option StructDef
  | .struct _ name =>
    match file.scopes.lookup ScopeTree.root name with
    | some (.struct d _) => some d
    | _ => none
  | .exported inner => inner.struct? file
  | _ => none

def Stmt.structUnit? (file : FileContext) (st : Stmt) : Option ClassUnit :=
  (st.struct? file).bind (StructDef.unit? file)

/-! ### Declarations at the top -/

/-- From `s` to `t` the generic ones of these functions were put aside. -/
structure PutAside (file : FileContext) (D : List Declaration) (s t : LowerState) : Prop where
  added : ∀ d ∈ D, d.IsGeneric file → t.file.generics.lookup d.name = some d.decl
  kept : ∀ name ∉ D.map Declaration.name, t.file.generics.lookup name = s.file.generics.lookup name

namespace PutAside

theorem of_eq (h : t.file.generics = s.file.generics) : PutAside file [] s t :=
  ⟨nofun, fun _ _ => by rw [h]⟩

theorem trans {D E : List Declaration} {u : LowerState} (h : PutAside file D s t)
    (k : PutAside file E t u) (hnames : ((D ++ E).map Declaration.name).Nodup) :
    PutAside file (D ++ E) s u := by
  rw [List.map_append] at hnames
  refine ⟨fun d hd hg => ?_, fun name hname => ?_⟩
  · rcases List.mem_append.mp hd with hd | hd
    · rw [k.kept d.name (List.disjoint_of_nodup_append hnames (List.mem_map_of_mem hd)),
        h.added d hd hg]
    · exact k.added d hd hg
  · rw [List.map_append, List.mem_append, not_or] at hname
    rw [k.kept name hname.2, h.kept name hname.1]

end PutAside

/-- From `s` to `t` the declarations were met: the generic ones wait, and every struct has its unit.
-/
structure Declared (file : FileContext) (stmts : List Stmt) (s t : LowerState)
    (tr : Trail) : Prop where
  reached : declarationsOf ScopeTree.root stmts ⊆ tr.reached
  generics : PutAside file (declarationsOf ScopeTree.root stmts) s t
  structs : t.file.structs = s.file.structs ++ stmts.filterMap (Stmt.structUnit? file)
  units : ∀ st ∈ stmts, ∀ d ∈ st.struct? file, ∃ unit, d.unit? file = some unit

/-- What a statement does that declares one function. -/
theorem function_declared {decl : FunctionDecl}
    (h : lowerFunction file ScopeTree.root decl s = .ok () t) (hflat : decl.body.isFlat = true) :
    Declared file [.function decl] s t (Trail.function file ScopeTree.root decl s) := by
  have hdecls : declarationsOf ScopeTree.root [.function decl] = [⟨ScopeTree.root, decl⟩] := by
    rw [declarationsOf, declarationsOf, List.append_nil, Stmt.declarations_function,
      Declaration.all, Block.declarations_of_flat hflat]
  obtain ⟨sig, hlookup, h⟩ := lowerFunction_ok.mp h
  have hsig : Declaration.sig? file ⟨ScopeTree.root, decl⟩ = some sig := by
    simp only [Declaration.sig?, Declaration.name, hlookup]
  have hreached : [⟨ScopeTree.root, decl⟩] ⊆
      (Trail.function file ScopeTree.root decl s).reached := by
    cases decl
    rw [Trail.function]
    exact List.subset_append_left _ _
  split_ifs at h with hg
  · simp only [defer, bind_ok, Lower.log_ok, modify_ok] at h
    obtain ⟨_, _, rfl, rfl⟩ := h
    refine ⟨hdecls ▸ hreached, hdecls ▸ ⟨fun d hd _ => ?_, fun name hname => ?_⟩,
      (List.append_nil _).symm, by simp⟩
    · rw [List.mem_singleton.mp hd]
      exact (Dict.lookup_insert _ _ _ _).trans (if_pos rfl)
    · exact (Dict.lookup_insert _ _ _ _).trans (if_neg fun heq =>
        hname (List.mem_singleton.mpr heq))
  · obtain ⟨hstructs, hgenerics⟩ := lowerBody_keeps hflat h
    refine ⟨hdecls ▸ hreached, hdecls ▸ ⟨fun d hd hgeneric => ?_, fun name _ => by rw [hgenerics]⟩,
      hstructs.trans (List.append_nil _).symm, by simp⟩
    obtain ⟨own, hown, hgeneric⟩ := List.mem_singleton.mp hd ▸ hgeneric
    rw [Option.some.inj (hsig.symm.trans hown)] at hg
    exact absurd hgeneric hg

theorem struct_declared {span : Span} {name : String}
    (h : lowerStruct file ScopeTree.root name span s = .ok () t)
    (hnew : ∀ d ∈ (Stmt.struct span name).struct? file,
      d.qualifiedName ∉ s.file.structs.map ClassUnit.name) :
    Declared file [.struct span name] s t {} := by
  obtain ⟨d, bindings, hlookup, h⟩ := lowerStruct_iff.mp h
  have hstruct : (Stmt.struct span name).struct? file = some d := by
    simp only [Stmt.struct?, hlookup]
  have hfresh : s.file.structs.any (·.name == d.qualifiedName) = false := by
    rw [List.any_eq_false]
    exact fun u hu heq => hnew d hstruct (beq_iff_eq.mp heq ▸ List.mem_map_of_mem hu)
  rw [hfresh, if_neg Bool.false_ne_true] at h
  obtain ⟨unit, hunit, rfl⟩ := h
  have hunit? := StructDef.unit?_eq_some.mpr hunit
  refine ⟨List.nil_subset _, .of_eq rfl, ?_, fun st hst e he => ?_⟩
  · simp [Stmt.structUnit?, hlookup, hunit?]
  · rw [List.mem_singleton.mp hst, hstruct] at he
    exact Option.some.inj he ▸ ⟨unit, hunit?⟩

theorem Declared.quiet (hdecls : st.declarations ScopeTree.root = [])
    (hstruct : st.struct? file = none) : Declared file [st] s s {} := by
  have hnone : declarationsOf ScopeTree.root [st] =
      [] := by rw [declarationsOf, declarationsOf, hdecls, List.append_nil]
  refine ⟨?_, hnone ▸ .of_eq rfl, ?_, ?_⟩
  · rw [hnone]
    exact List.nil_subset _
  · simp [Stmt.structUnit?, hstruct]
  · simp [hstruct]

theorem top_declared (h : TopRun file s st t)
    (hflat : ∀ d ∈ st.declarations ScopeTree.root, d.decl.body.isFlat = true)
    (hnew : ∀ d ∈ st.struct? file, d.qualifiedName ∉ s.file.structs.map ClassUnit.name) :
    Declared file [st] s t (Trail.top file st s) := by
  induction h with
  | function h =>
    rw [Stmt.declarations_function] at hflat
    exact function_declared h (hflat _ List.mem_cons_self)
  | struct h => exact struct_declared h hnew
  | exported _ ih =>
    rename_i inner t _
    have hone : declarationsOf ScopeTree.root [.exported inner] = declarationsOf ScopeTree.root
        [inner] := by
      simp only [declarationsOf, Stmt.declarations]
    rw [Stmt.declarations] at hflat
    obtain ⟨hreached, hgenerics, hstructs, hunits⟩ := ih hflat hnew
    exact ⟨hone ▸ hreached, hone ▸ hgenerics, hstructs, by simpa using hunits⟩
  | use | typeAlias | unionType => exact .quiet rfl rfl

theorem Declared.cons {u : LowerState} {tr tr' : Trail} (h : Declared file [st] s t tr)
    (k : Declared file stmts t u tr')
    (hnames : ((declarationsOf ScopeTree.root (st :: stmts)).map Declaration.name).Nodup) :
    Declared file (st :: stmts) s u (tr ++ tr') := by
  have hsplit : declarationsOf ScopeTree.root (st :: stmts) =
      declarationsOf ScopeTree.root [st] ++ declarationsOf ScopeTree.root stmts := by
    simp only [declarationsOf, List.append_nil]
  rw [hsplit] at hnames
  refine ⟨?_, hsplit ▸ h.generics.trans k.generics hnames, ?_, ?_⟩
  · rw [hsplit, Trail.append_reached]
    exact List.append_subset.mpr ⟨List.subset_append_of_subset_left _ h.reached,
      List.subset_append_of_subset_right _ k.reached⟩
  · rw [k.structs, h.structs, List.append_assoc, ← List.filterMap_append, List.singleton_append]
  · rintro other hother
    rcases List.mem_cons.mp hother with rfl | hother
    · exact h.units _ (List.mem_singleton_self _)
    · exact k.units other hother

theorem Declared.structNames (h : Declared file [st] s t tr) : t.file.structs.map ClassUnit.name =
    s.file.structs.map ClassUnit.name ++ (st.struct? file).toList.map StructDef.qualifiedName := by
  rw [h.structs, List.map_append]
  cases hstruct : st.struct? file with
  | none => simp [Stmt.structUnit?, hstruct]
  | some d =>
    obtain ⟨unit, hunit⟩ := h.units st (List.mem_singleton_self _) d hstruct
    simp [Stmt.structUnit?, hstruct, hunit, StructDef.unit?_name hunit]

/-- The declarations of a file, where no two structs have one qualified name. -/
theorem declared_of_ok (h : stmts.forM (lowerTop file) s = .ok () t)
    (hflat : ∀ d ∈ declarationsOf ScopeTree.root stmts, d.decl.body.isFlat = true)
    (hnames : ((declarationsOf ScopeTree.root stmts).map Declaration.name).Nodup)
    (hstructs : (s.file.structs.map ClassUnit.name ++
      (stmts.filterMap (Stmt.struct? file)).map StructDef.qualifiedName).Nodup) :
    Declared file stmts s t (Trail.each (Trail.top file) (lowerTop file) stmts s) := by
  induction stmts generalizing s with
  | nil =>
    obtain ⟨-, rfl⟩ := pure_ok.mp h
    exact ⟨List.nil_subset _, .of_eq rfl, (List.append_nil _).symm, nofun⟩
  | cons st rest ih =>
    obtain ⟨_, s₁, hfirst, hrest⟩ := bind_ok.mp h
    rw [declarationsOf] at hflat
    have hstep : Declared file [st] s s₁ (Trail.top file st s) := by
      refine top_declared (topRun_of_ok hfirst) (fun d hd => hflat d (List.mem_append_left _ hd))
        fun d hd hmem => ?_
      refine List.disjoint_of_nodup_append hstructs hmem (List.mem_map_of_mem ?_)
      exact List.mem_filterMap.mpr ⟨st, List.mem_cons_self, hd⟩
    rw [Trail.each, after_ok hfirst]
    refine hstep.cons (ih hrest (fun d hd => hflat d (List.mem_append_right _ hd)) ?_ ?_) hnames
    · rw [declarationsOf, List.map_append] at hnames
      exact hnames.of_append_right
    · rw [hstep.structNames, List.append_assoc, ← List.map_append]
      cases hstruct : st.struct? file <;> simpa [hstruct] using hstructs

/-! ### Declarations in any order -/

/-- Actions that can be done wherever `P` holds, and keep it, can be done one after the other. -/
theorem forM_total {α : Type} {act : α → Lower Unit} {list : List α} {P : LowerState → Prop}
    (h : ∀ a ∈ list, ∀ s, P s → ∃ t, act a s = .ok () t ∧ P t) (hs : P s) :
    ∃ t, list.forM act s = .ok () t ∧ P t := by
  induction list generalizing s with
  | nil => exact ⟨s, rfl, hs⟩
  | cons a rest ih =>
    obtain ⟨s₁, hfirst, hs₁⟩ := h a List.mem_cons_self s hs
    obtain ⟨t, hrest, ht⟩ := ih (fun b hb => h b (List.mem_cons_of_mem _ hb)) hs₁
    exact ⟨t, bind_ok.mpr ⟨(), s₁, hfirst, hrest⟩, ht⟩

theorem exists_of_forM {α : Type} {act : α → Lower Unit} {list : List α}
    (h : list.forM act s = .ok () t) : ∀ a ∈ list, ∃ s t, act a s = .ok () t := by
  induction list generalizing s with
  | nil => nofun
  | cons a rest ih =>
    obtain ⟨_, s₁, hfirst, hrest⟩ := bind_ok.mp h
    intro b hb
    rcases List.mem_cons.mp hb with rfl | hb
    · exact ⟨s, s₁, hfirst⟩
    · exact ih hrest b hb

/-- What was declared once can be declared anywhere, if its functions can be lowered and its structs
have units. -/
theorem top_total (h : TopRun file s st t)
    (hbodies : ∀ d ∈ st.declarations ScopeTree.root, ∀ sig, d.sig? file = some sig →
      sig.isGeneric = false →
      ∀ s, ∃ t, lowerBody file (.declared d.name sig) d.decl.body s = .ok () t)
    (hunits : ∀ d ∈ st.struct? file, ∃ unit, d.unit? file = some unit) (s' : LowerState) :
    ∃ t', lowerTop file st s' = .ok () t' := by
  induction h with
  | function h =>
    rename_i decl t
    obtain ⟨sig, hlookup, -⟩ := lowerFunction_ok.mp h
    have hsig : Declaration.sig? file ⟨ScopeTree.root, decl⟩ = some sig := by
      simp only [Declaration.sig?, Declaration.name, hlookup]
    cases hg : sig.isGeneric with
    | true => exact ⟨_, lowerFunction_ok.mpr ⟨sig, hlookup, by rw [hg, if_pos rfl]; rfl⟩⟩
    | false =>
      rw [Stmt.declarations_function] at hbodies
      obtain ⟨t', ht'⟩ := hbodies _ List.mem_cons_self sig hsig hg s'
      refine ⟨t', lowerFunction_ok.mpr ⟨sig, hlookup, ?_⟩⟩
      rw [hg, if_neg Bool.false_ne_true]
      exact ht'
  | struct h =>
    obtain ⟨d, bindings, hlookup, -⟩ := lowerStruct_iff.mp h
    obtain ⟨unit, hunit⟩ := hunits d (by simp only [Stmt.struct?, hlookup, Option.mem_def])
    refine Exists.imp (fun t' ht' => lowerStruct_iff.mpr ⟨d, bindings, hlookup, ht'⟩) ?_
    split_ifs
    · exact ⟨s', rfl⟩
    · exact ⟨_, unit, StructDef.unit?_eq_some.mp hunit, rfl⟩
  | exported _ ih =>
    rw [Stmt.declarations] at hbodies
    exact ih hbodies hunits
  | use | typeAlias | unionType => exact ⟨s', rfl⟩

end ClassGen
