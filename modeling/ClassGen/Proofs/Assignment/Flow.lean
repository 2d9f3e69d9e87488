import Mathlib.Data.Set.Insert
import ClassGen.Proofs.ControlFlow.Path
import ClassGen.Proofs.Lowering.Confined
import ClassGen.Proofs.Lowering.Labels
import ClassGen.Proofs.StackKinds.Flow

/-! Which slots have been stored to along a run of instructions. At a label these are slots that
have been stored to on every way there, by a jump or by falling through. -/

namespace ClassGen

namespace Opcode

def isLoad : Opcode → Bool
  | iload | lload | fload | dload | aload => true
  | _ => false

def isStore : Opcode → Bool
  | istore | lstore | fstore | dstore | astore => true
  | _ => false

theorem isLoad_of_isStore {op : Opcode} (h : op.isStore = true) :
    op.isLoad = false ∧ op.isTerminal = false := by
  unfold isStore at h
  split at h
  · exact ⟨rfl, rfl⟩
  · exact ⟨rfl, rfl⟩
  · exact ⟨rfl, rfl⟩
  · exact ⟨rfl, rfl⟩
  · exact ⟨rfl, rfl⟩
  · cases h

end Opcode

namespace Instr

/-- The slot that the instruction reads. -/
def loaded? : Instr → Option UInt16
  | slot code n => if code.isLoad then some n else none
  | _ => none

/-- The slot that it writes. -/
def stored? : Instr → Option UInt16
  | slot code n => if code.isStore then some n else none
  | _ => none

/-- The label that it places or jumps to. -/
def label? : Instr → Option Label
  | jump _ l | mark l => some l
  | _ => none

/-- With `X` stored to before it, and `ρ l` at each label, the instruction reads and promises no
more. -/
structure Finds (ρ : Label → Set UInt16) (X : Set UInt16) (i : Instr) : Prop where
  loads : ∀ n, i.loaded? = some n → n ∈ X
  labels : ∀ l, i.label? = some l → ρ l ⊆ X

/-- The slots stored to after it; control does not get behind a terminal instruction. -/
def leaves (ρ : Label → Set UInt16) (X : Set UInt16) (i : Instr) : Set UInt16 :=
  match i.mark? with
  | some l => ρ l
  | none => if i.isTerminal then Set.univ else X ∪ {n | i.stored? = some n}

variable {ρ : Label → Set UInt16} {X Y : Set UInt16} {i : Instr}

theorem Finds.mono (h : i.Finds ρ X) (hXY : X ⊆ Y) : i.Finds ρ Y :=
  ⟨fun n hn => hXY (h.loads n hn), fun l hl => (h.labels l hl).trans hXY⟩

theorem leaves_mono (hXY : X ⊆ Y) : i.leaves ρ X ⊆ i.leaves ρ Y := by
  unfold leaves
  cases i.mark? with
  | some l => exact subset_rfl
  | none =>
    dsimp only
    split_ifs
    · exact subset_rfl
    · exact Set.union_subset_union_left _ hXY

/-- Only a mark can lose what was stored to. -/
theorem subset_leaves (hlabels : ∀ l, i.mark? = some l → X ⊆ ρ l) : X ⊆ i.leaves ρ X := by
  unfold leaves
  cases hi : i.mark? with
  | some l => exact hlabels l hi
  | none =>
    dsimp only
    split_ifs
    · exact Set.subset_univ X
    · exact Set.subset_union_left

theorem mem_leaves {n : UInt16} (h : i.Finds ρ X) (hfalls : i.isTerminal = false)
    (hn : n ∈ i.leaves ρ X) : n ∈ X ∨ i.stored? = some n := by
  unfold leaves at hn
  cases hi : i.mark? with
  | some l =>
    rw [hi] at hn
    refine .inl (h.labels l ?_ hn)
    rw [Instr.mark?_eq_some.mp hi]
    rfl
  | none =>
    rw [hi] at hn
    simp only [hfalls, Bool.false_eq_true, if_false] at hn
    exact hn

end Instr

namespace Code

/-- From `X` the code reads only what was stored to, and `Y` has been where control leaves it at its
end. -/
def Assigns (ρ : Label → Set UInt16) : Code → Set UInt16 → Set UInt16 → Prop
  | [], X, Y => Y ⊆ X
  | i :: c, X, Y => i.Finds ρ X ∧ Assigns ρ c (i.leaves ρ X) Y

/-- Some instruction at these positions stores to the slot. -/
def Stored (P : Code) (visited : List Nat) (n : UInt16) : Prop :=
  ∃ k ∈ visited, ∃ i, P[k]? = some i ∧ i.stored? = some n

variable {ρ : Label → Set UInt16} {X Y Z : Set UInt16} {a b c P : Code} {l : Label} {n : UInt16}

namespace Assigns

theorem mono (h : c.Assigns ρ X Y) (hXZ : X ⊆ Z) : c.Assigns ρ Z Y := by
  induction c generalizing X Z with
  | nil => exact subset_trans h hXZ
  | cons i c ih => exact ⟨h.1.mono hXZ, ih h.2 (Instr.leaves_mono hXZ)⟩

theorem forget (h : c.Assigns ρ X Y) (hZY : Z ⊆ Y) : c.Assigns ρ X Z := by
  induction c generalizing X with
  | nil => exact subset_trans hZY h
  | cons i c ih => exact ⟨h.1, ih h.2⟩

theorem append (ha : a.Assigns ρ X Y) (hb : b.Assigns ρ Y Z) : (a ++ b).Assigns ρ X Z := by
  induction a generalizing X with
  | nil => exact hb.mono ha
  | cons i a ih => exact ⟨ha.1, ih ha.2⟩

/-- Behind a terminal instruction anything may be said. -/
theorem terminal (h : c.Assigns ρ X Y) (hend : fallsThrough c = false) (Z : Set UInt16) :
    c.Assigns ρ X Z := by
  induction c generalizing X with
  | nil => cases hend
  | cons i c ih =>
    refine ⟨h.1, ?_⟩
    cases c with
    | nil =>
      have hi : i.isTerminal = true := by simpa [fallsThrough] using hend
      have hmark : i.mark? = none := by cases i <;> first | rfl | cases hi
      show Z ⊆ i.leaves ρ X
      simp [Instr.leaves, hmark, hi]
    | cons j c => exact ih h.2 (by simpa [fallsThrough, List.getLast?_cons_cons] using hend)

theorem mark (h : ρ l ⊆ X) : Assigns ρ [.mark l] X (ρ l) :=
  ⟨⟨nofun, fun _ hl => Option.some.inj hl ▸ h⟩, subset_rfl⟩

theorem jump {op : Opcode} (h : ρ l ⊆ X) : Assigns ρ [.jump op l] X X :=
  ⟨⟨nofun, fun _ hl => Option.some.inj hl ▸ h⟩, Instr.subset_leaves nofun⟩

theorem goto (h : ρ l ⊆ X) (Y : Set UInt16) : Assigns ρ [Code.goto l] X Y := (jump h).terminal rfl Y

theorem store {op : Opcode} (hop : op.isStore = true) : Assigns ρ [.slot op n] X (insert n X) := by
  obtain ⟨hload, hterminal⟩ := Opcode.isLoad_of_isStore hop
  refine ⟨⟨fun m hm => by simp [Instr.loaded?, hload] at hm, nofun⟩, ?_⟩
  show insert n X ⊆ Instr.leaves ρ X (.slot op n)
  simp only [Instr.leaves, Instr.mark?, Instr.isTerminal, Instr.opcode?, Option.any_some, hterminal,
    Bool.false_eq_true, if_false, Instr.stored?, hop, if_true, Option.some.injEq]
  exact Set.insert_subset (.inr rfl) Set.subset_union_left

/-- Code that reads from `X` only, and has `X` at all its labels. -/
theorem constant (hloads : ∀ i ∈ c, ∀ n, i.loaded? = some n → n ∈ X)
    (hlabels : ∀ i ∈ c, ∀ l, i.label? = some l → ρ l = X) : c.Assigns ρ X X := by
  induction c with
  | nil => exact subset_rfl
  | cons i c ih =>
    have hrest := ih (fun j hj => hloads j (List.mem_cons_of_mem _ hj)) fun j hj =>
      hlabels j (List.mem_cons_of_mem _ hj)
    have hown := hlabels i List.mem_cons_self
    refine ⟨⟨hloads i List.mem_cons_self, fun l hl => (hown l hl).subset⟩,
      hrest.mono (Instr.subset_leaves fun l hl => ?_)⟩
    rw [Instr.mark?_eq_some.mp hl] at hown
    exact (hown l rfl).symm.subset

/-- Code that accesses slots in `X`, where its own labels and its exits have `X`. -/
theorem confined {exits : List Label} (h : c.Confined (fun _ n => n ∈ X) exits)
    (hlabels : ∀ l, .mark l ∈ c ∨ l ∈ exits → ρ l = X) : c.Assigns ρ X X := by
  refine constant (fun i hi n hn => ?_) fun i hi l hl => hlabels l ?_
  · cases i with
    | slot op m =>
      simp only [Instr.loaded?, Option.ite_none_right_eq_some, Option.some.injEq] at hn
      exact hn.2 ▸ h.slots op m hi
    | _ => cases hn
  · cases i with
    | mark label => exact .inl (Option.some.inj hl ▸ hi)
    | jump op target => exact Option.some.inj hl ▸ h.jumps op target hi
    | _ => cases hl

/-- The labels of a fragment that keeps its jumps to itself get `X`. -/
theorem labelled {lo hi : Nat} (hfresh : c.Fresh lo hi) (h : c.Confined (fun _ n => n ∈ X) []) :
    Labelled lo hi fun ρ => c.Assigns ρ X X := by
  refine ⟨hfresh.le, fun _ => X, fun ρ hρ => confined h fun l hl => ?_⟩
  obtain ⟨hlo, hhi⟩ := hfresh.range l (mem_marks.mpr (hl.resolve_right List.not_mem_nil))
  exact hρ l hlo hhi

/-- A fragment that places no label and leaves only to labels that have `X`. -/
theorem unmarked {exits : List Label} (h : c.Confined (fun _ n => n ∈ X) exits)
    (hmarks : c.marks = []) (hexits : ∀ l ∈ exits, ρ l = X) : c.Assigns ρ X X := by
  refine confined h fun l hl => hexits l (hl.resolve_left fun hmark => ?_)
  simpa [hmarks] using mem_marks.mpr hmark

/-- Code that has to do neither with slots nor with labels. -/
theorem simple (h : c.all Instr.isSimple = true) (hmarks : c.marks = []) : c.Assigns ρ X X :=
  unmarked (.of_simple h) hmarks fun _ hl => nomatch (hl : _ ∈ [])

theorem land (h : ρ l = X) : Assigns ρ [.mark l] X X := (mark h.subset).forget h.symm.subset

/-- The end of a loop: back to its start, and the label behind it. -/
theorem back {start done : Label} (hstart : ρ start ⊆ X) (hdone : ρ done = Y) :
    Assigns ρ [Code.goto start, .mark done] X Y :=
  append (a := [Code.goto start]) (goto hstart Y) (land hdone)

/-- Code that goes on at the label if it comes to its end. -/
theorem thenGoto (hc : c.Assigns ρ X Y) (hl : fallsThrough c = true → ρ l ⊆ Y) (Z : Set UInt16) :
    Assigns ρ (thenGoto c l) X Z := by
  unfold ClassGen.thenGoto
  split_ifs with hfalls
  · exact hc.append (goto (hl hfalls) Z)
  · exact hc.terminal (Bool.eq_false_iff.mpr hfalls) Z

/-! ### Paths -/

theorem drop (h : c.Assigns ρ X Y) (k : Nat) : ∃ Z, Assigns ρ (c.drop k) Z Y := by
  induction k generalizing c X with
  | zero => exact ⟨X, h⟩
  | succ k ih =>
    cases c with
    | nil => exact ⟨X, h⟩
    | cons i c => exact ih h.2

/-- Where a path stands, what may be read there was stored to on it or before it. -/
theorem path {visited : List Nat} {k : Nat} (h : P.Assigns ρ X Y) (hpath : P.Path visited k) :
    ∃ Z, Assigns ρ (P.drop k) Z Y ∧ ∀ n ∈ Z, n ∈ X ∨ P.Stored visited n := by
  induction hpath with
  | entry => exact ⟨X, h, fun n hn => .inl hn⟩
  | step hprev hgo ih =>
    rename_i visited k m
    obtain ⟨Z, hZ, hstored⟩ := ih
    have earlier : ∀ n ∈ Z, n ∈ X ∨ P.Stored (visited ++ [k]) n := fun n hn =>
      (hstored n hn).imp_right fun ⟨j, hj, hi⟩ => ⟨j, List.mem_append_left _ hj, hi⟩
    cases hgo with
    | next hi hfalls =>
      obtain ⟨hk, rfl⟩ := List.getElem?_eq_some_iff.mp hi
      rw [List.drop_eq_getElem_cons hk] at hZ
      refine ⟨_, hZ.2, fun n hn => ?_⟩
      rcases Instr.mem_leaves hZ.1 hfalls hn with hn | hn
      · exact earlier n hn
      · exact .inr ⟨k, List.mem_append_right _ (List.mem_singleton_self k), _, hi, hn⟩
    | jump hi hm =>
      rename_i op l
      obtain ⟨hk, hi⟩ := List.getElem?_eq_some_iff.mp hi
      obtain ⟨hlt, hm⟩ := List.getElem?_eq_some_iff.mp hm
      rw [List.drop_eq_getElem_cons hk, hi] at hZ
      -- the code behind the mark was checked for what the label promises
      obtain ⟨W, hW⟩ := h.drop m
      rw [List.drop_eq_getElem_cons hlt, hm] at hW ⊢
      exact ⟨ρ l, ⟨⟨nofun, fun _ hl => Option.some.inj hl ▸ subset_rfl⟩, hW.2⟩,
        fun n hn => earlier n (hZ.1.labels l rfl hn)⟩

/-- What is read on a path was stored to on it or before it. -/
theorem stored {visited : List Nat} {k : Nat} {i : Instr} (h : P.Assigns ρ X Y)
    (hpath : P.Path visited k) (hi : P[k]? = some i) (hn : i.loaded? = some n) :
    n ∈ X ∨ P.Stored visited n := by
  obtain ⟨Z, hZ, hstored⟩ := h.path hpath
  obtain ⟨hk, rfl⟩ := List.getElem?_eq_some_iff.mp hi
  rw [List.drop_eq_getElem_cons hk] at hZ
  exact hstored n (hZ.1.loads n hn)

end Assigns

end Code

end ClassGen
