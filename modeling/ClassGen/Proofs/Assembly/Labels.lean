import ClassGen.Proofs.Assembly.Faithful

/-! A method can be refused for its size, its constants or its stack, but for a label only if a jump
goes to one that it does not place. -/

namespace ClassGen

open Run

/-- The computation does not fail for a label. -/
def Labelless {α : Type} (x : PoolM α) : Prop := ∀ p q method, x p ≠ .error (.unknownLabel method) q

namespace Labelless

variable {α β : Type} {x : PoolM α} {f : α → PoolM β}

theorem pure (a : α) : Labelless (pure a) := fun p q method h => by cases h

theorem bind_of_ok (hx : Labelless x) (hf : ∀ p a q, x p = .ok a q → Labelless (f a)) :
    Labelless (x >>= f) := by
  intro p q method h
  simp only [Bind.bind, EStateM.bind] at h
  split at h
  · next a r ha => exact hf p a r ha r q method h
  · next e r he =>
    cases h
    exact hx p _ method he

theorem bind (hx : Labelless x) (hf : ∀ a, Labelless (f a)) : Labelless (x >>= f) :=
  hx.bind_of_ok fun _ a _ _ => hf a

theorem map (g : α → β) (hx : Labelless x) : Labelless (g <$> x) := by
  rw [map_eq_pure_bind]
  exact hx.bind fun a => pure _

theorem ofExcept {e : Except ClassFormatError α} (h : ∀ method, e ≠ .error (.unknownLabel method)) :
    Labelless (MonadExcept.ofExcept e) := by
  intro p q method hrun
  cases e with
  | error error =>
    cases hrun
    exact h method rfl
  | ok a => cases hrun

theorem mapM {γ : Type} {g : γ → PoolM α} (hg : ∀ c, Labelless (g c)) (cs : List γ) :
    Labelless (cs.mapM g) := by
  induction cs with
  | nil => exact pure []
  | cons c cs ih =>
    rw [List.mapM_cons]
    exact (hg c).bind fun a => ih.bind fun as => pure _

/-! ### Constants -/

theorem intern (e : PoolEntry) : Labelless (Pool.intern e) := by
  intro p q method h
  unfold Pool.intern at h
  split at h
  · cases h
  · split at h <;> cases h

theorem className (name : String) : Labelless (Pool.className name) :=
  (intern _).bind fun _ => intern _

theorem nameAndType (name descriptor : String) : Labelless (Pool.nameAndType name descriptor) :=
  (intern _).bind fun _ => (intern _).bind fun _ => intern _

theorem constant (v : Constant) : Labelless (Assembly.encodeConstant v) := by
  cases v with
  | int v =>
    rw [Assembly.encodeConstant]
    split_ifs
    · exact pure _
    · exact pure _
    · exact pure _
    · exact (intern _).map _
  | float bits =>
    rw [Assembly.encodeConstant]
    split_ifs
    · exact pure _
    · exact pure _
    · exact pure _
    · exact (intern _).map _
  | double bits =>
    rw [Assembly.encodeConstant]
    split_ifs
    · exact pure _
    · exact pure _
    · exact (intern _).map _
  | text value => exact ((intern _).bind fun _ => intern _).map _

theorem invoke (code : Opcode) (target : Member) :
    Labelless (Assembly.encodeInvoke code target) := by
  refine ((className _).bind fun _ => (nameAndType _ _).bind fun _ => intern _).bind fun index => ?_
  split_ifs
  · cases MethodDescriptor.parse target.descriptor with
    | error e => intro p q method h; cases h
    | ok d => exact pure _
  · exact pure _

theorem encode (i : Instr) : Labelless (Assembly.encode i) := by
  cases i with
  | op | slot | jump | mark => exact pure _
  | push value => exact (constant value).map _
  | type code name => exact (className name).map _
  | field code target =>
      exact ((className _).bind fun _ => (nameAndType _ _).bind fun _ => intern _).map _
  | invoke code target => exact (invoke code target).map _

end Labelless

/-! ### Stack and layout -/

theorem DepthScan.run_ne_unknownLabel {name method : String} {code : Code} {s : DepthScan} :
    DepthScan.run name s code ≠ .error (.unknownLabel method) := by
  induction code generalizing s with
  | nil => intro h; cases h
  | cons i rest ih =>
    intro h
    rw [DepthScan.run] at h
    split at h
    · next e he =>
      cases h
      unfold DepthScan.step at he
      split at he
      · cases he
      · split at he
        · cases he
        · dsimp only at he
          split_ifs at he
          cases he
    · exact ih h

theorem Method.maxStack_ne_unknownLabel {m : Method} {method : String} :
    m.maxStack ≠ .error (.unknownLabel method) := by
  intro h
  unfold Method.maxStack at h
  split at h
  · next e he =>
    cases h
    exact DepthScan.run_ne_unknownLabel he
  · split_ifs at h
    cases h

namespace Assembly

/-- What encoding makes of jumps and marks, and of nothing else. -/
theorem encode_ok {i : Instr} {p q : Pool} {piece : Piece} (h : encode i p = .ok piece q) :
    (∀ l, i = .mark l → piece = .mark l) ∧ ∀ code l, piece = .jump code l → i = .jump code l := by
  cases i with
  | op | slot | jump | mark =>
    obtain ⟨rfl, -⟩ := pure_ok.mp h
    simp
  | push | type | field | invoke =>
    obtain ⟨content, -, rfl⟩ := map_ok.mp h
    simp

theorem pieces_ok {code : Code} {p q : Pool} {pieces : List Piece}
    (h : code.mapM encode p = .ok pieces q) :
    (∀ l, .mark l ∈ code → .mark l ∈ pieces) ∧ ∀ op l, .jump op l ∈ pieces → .jump op l ∈ code := by
  induction code generalizing p q pieces with
  | nil =>
    obtain ⟨rfl, -⟩ := pure_ok.mp h
    simp
  | cons i rest ih =>
    simp only [List.mapM_cons, bind_ok, pure_ok] at h
    obtain ⟨piece, _, hpiece, pieces, _, hpieces, rfl, -⟩ := h
    obtain ⟨hmark, hjump⟩ := encode_ok hpiece
    obtain ⟨hmarks, hjumps⟩ := ih hpieces
    refine ⟨fun l hl => ?_, fun op l hl => ?_⟩
    · rcases List.mem_cons.mp hl with rfl | hl
      · exact List.mem_cons.mpr (.inl (hmark l rfl).symm)
      · exact List.mem_cons_of_mem _ (hmarks l hl)
    · rcases List.mem_cons.mp hl with hl | hl
      · exact List.mem_cons.mpr (.inl (hjump op l hl.symm).symm)
      · exact List.mem_cons_of_mem _ (hjumps op l hl)

/-- A label that is placed has an offset. -/
theorem place_marked {pieces : List Piece} {l : Label} (acc : Std.TreeMap Label Nat × Nat)
    (h : Piece.mark l ∈ pieces) : (pieces.foldl place acc).1[l]?.isSome = true := by
  induction pieces generalizing acc with
  | nil => cases h
  | cons piece rest ih =>
    rw [List.foldl_cons]
    by_cases hrest : Piece.mark l ∈ rest
    · exact ih _ hrest
    · obtain rfl : Piece.mark l = piece := (List.mem_cons.mp h).resolve_right hrest
      rw [place_unmarked hrest, place, Std.TreeMap.getElem?_insert_self]
      rfl

theorem link_ne_unknownLabel {name method : String} {offsets : Std.TreeMap Label Nat}
    {acc : List Bytes} {n : Nat} {pieces : List Piece}
    (h : ∀ op l, .jump op l ∈ pieces → offsets[l]?.isSome = true) :
    link name offsets acc n pieces ≠ .error (.unknownLabel method) := by
  induction pieces generalizing acc n with
  | nil => intro hrun; cases hrun
  | cons piece rest ih =>
    have hrest : ∀ op l, .jump op l ∈ rest → offsets[l]?.isSome = true :=
      fun op l hl => h op l (List.mem_cons_of_mem _ hl)
    cases piece with
    | bytes content => exact ih hrest
    | mark label => exact ih hrest
    | jump code target =>
      intro hrun
      obtain ⟨destination, hd⟩ := Option.isSome_iff_exists.mp (h code target List.mem_cons_self)
      simp only [link, hd] at hrun
      split at hrun
      · cases hrun
      · exact ih hrest hrun

end Assembly

/-- A method that places the targets of its jumps is not refused for a label, whatever the pool. -/
theorem Method.assemble_ne_unknownLabel {m : Method}
    (h : ∀ op l, .jump op l ∈ m.code → .mark l ∈ m.code) (p q : Pool) (method : String) :
    m.assemble p ≠ .error (.unknownLabel method) q := by
  have hlabels : Labelless m.assemble := by
    refine (Labelless.ofExcept fun _ => Method.maxStack_ne_unknownLabel).bind fun depth => ?_
    refine (Labelless.mapM Labelless.encode m.code).bind_of_ok fun p pieces q hpieces => ?_
    refine (Labelless.ofExcept fun _ hresolve => ?_).bind fun code => Labelless.pure _
    obtain ⟨hmarks, hjumps⟩ := Assembly.pieces_ok hpieces
    unfold Assembly.resolve at hresolve
    dsimp only at hresolve
    split_ifs at hresolve
    · cases hresolve
    · refine Assembly.link_ne_unknownLabel (fun op l hl => ?_) hresolve
      exact Assembly.place_marked (∅, 0) (hmarks l (h op l (hjumps op l hl)))
  exact hlabels p q method

end ClassGen
