import Mathlib.Algebra.GroupWithZero.Nat
import Mathlib.Tactic.SplitIfs
import ClassGen.ClassFile.Method
import ClassGen.Proofs.Descriptor

/-! The local slots of a method as a row of cells: that of the receiver, those of the arguments and
those of the variables. The kind of a cell says how wide it is and which instructions access it. -/

namespace ClassGen

/-- What a cell holds. -/
inductive Cell where
  | int | float | double | long | ref
  deriving DecidableEq

namespace Cell

def width : Cell → Nat
  | double | long => 2
  | _ => 1

def loadOp : Cell → Opcode
  | int => .iload
  | float => .fload
  | double => .dload
  | long => .lload
  | ref => .aload

def storeOp : Cell → Opcode
  | int => .istore
  | float => .fstore
  | double => .dstore
  | long => .lstore
  | ref => .astore

/-- Instructions of its kind. -/
def Has (k : Cell) (op : Opcode) : Prop := op = k.loadOp ∨ op = k.storeOp

instance (k : Cell) (op : Opcode) : Decidable (k.Has op) := inferInstanceAs (Decidable (_ ∨ _))

theorem width_pos (k : Cell) : 0 < k.width := by
  cases k <;> decide

/-- An instruction is of one kind. -/
theorem Has.inj {k j : Cell} {op : Opcode} (hk : k.Has op) (hj : j.Has op) : k = j := by
  rcases hk with rfl | rfl <;> cases k <;> cases j <;> first | rfl | exact absurd hj (by decide)

/-- Slots of a row of cells. -/
def span (cells : List Cell) : Nat := (cells.map width).sum

@[simp] theorem span_nil : span [] = 0 := rfl

@[simp] theorem span_cons (k : Cell) (cells : List Cell) :
    span (k :: cells) = k.width + span cells := by simp [span]

@[simp] theorem span_append (cells more : List Cell) :
    span (cells ++ more) = span cells + span more := by simp [span]

theorem span_le (cells : List Cell) : span cells ≤ 2 * cells.length := by
  induction cells with
  | nil => simp
  | cons k cells ih =>
    have : k.width ≤ 2 := by cases k <;> decide
    rw [span_cons, List.length_cons]
    omega

/-- The cell whose first slot is `n`. -/
def at? : List Cell → Nat → Option Cell
  | [], _ => none
  | k :: rest, n => if n = 0 then some k else if k.width ≤ n then at? rest (n - k.width) else none

theorem at?_cons (k : Cell) (rest : List Cell) (n : Nat) :
    at? (k :: rest) n = if n = 0 then some k else if k.width ≤ n then at? rest (n - k.width)
      else none := rfl

variable {cells more : List Cell} {n m : Nat} {k j : Cell}

/-- Cells that are added leave those before them where they are. -/
theorem at?_append (h : at? cells n = some k) : at? (cells ++ more) n = some k := by
  induction cells generalizing n with
  | nil => cases h
  | cons first rest ih =>
    rw [at?_cons] at h
    rw [List.cons_append, at?_cons]
    split_ifs at h ⊢
    · exact h
    · exact ih h

theorem at?_span (cells : List Cell) (k : Cell) (more : List Cell) : at? (cells ++ k :: more)
    (span cells) = some k := by
  induction cells with
  | nil => rfl
  | cons first rest ih =>
    have := first.width_pos
    rw [List.cons_append, at?_cons, span_cons,
      if_neg (by omega), if_pos (by omega), Nat.add_sub_cancel_left]
    exact ih

theorem at?_mem (h : at? cells n = some k) : k ∈ cells := by
  induction cells generalizing n with
  | nil => cases h
  | cons first rest ih =>
    rw [at?_cons] at h
    split_ifs at h
    · exact List.mem_cons.mpr (.inl (Option.some.inj h).symm)
    · exact List.mem_cons_of_mem _ (ih h)

/-- A cell ends inside the row. -/
theorem at?_le (h : at? cells n = some k) : n + k.width ≤ span cells := by
  induction cells generalizing n with
  | nil => cases h
  | cons first rest ih =>
    rw [at?_cons] at h
    rw [span_cons]
    split_ifs at h with hn hle
    · cases h
      omega
    · have := ih h
      omega

/-- Two cells are one, or apart. -/
theorem at?_apart (hn : at? cells n = some k) (hm : at? cells m = some j) :
    n = m ∨ n + k.width ≤ m ∨ m + j.width ≤ n := by
  induction cells generalizing n m with
  | nil => cases hn
  | cons first rest ih =>
    rw [at?_cons] at hn hm
    split_ifs at hn hm
    · omega
    · cases hn
      omega
    · cases hm
      omega
    · have := ih hn hm
      omega

end Cell

/-! ### Cells of the arguments and of variables -/

def FieldType.cell : FieldType → Cell
  | float => .float
  | double => .double
  | long => .long
  | object _ | array _ => .ref
  | byte | char | int | short | boolean => .int

/-- A missing value has the cell of a reference. -/
def Representation.cell : Representation → Cell
  | scalar .int | scalar .boolean => .int
  | scalar .float => .float
  | scalar .double => .double
  | _ => .ref

theorem FieldType.slots_eq (t : FieldType) : t.slots = t.cell.width := by
  cases t <;> rfl

theorem Arg.loadOp_eq (a : Arg) : a.loadOp = a.type.cell.loadOp := by
  unfold Arg.loadOp
  cases a.type <;> rfl

theorem Arg.storeOp_eq (a : Arg) : a.storeOp = a.type.cell.storeOp := by
  unfold Arg.storeOp
  cases a.type <;> rfl

theorem Representation.loadOp_eq (r : Representation) : r.loadOp = r.cell.loadOp := by
  rcases r with kind | _ | _ <;> first | rfl | cases kind <;> rfl

theorem Representation.storeOp_eq (r : Representation) : r.storeOp = r.cell.storeOp := by
  rcases r with kind | _ | _ <;> first | rfl | cases kind <;> rfl

theorem Representation.slots_eq (r : Representation) : max r.slots 1 = r.cell.width := by
  rcases r with kind | _ | _ <;> first | rfl | cases kind <;> rfl

/-- Only arguments are longs. -/
theorem Representation.cell_ne_long (r : Representation) : r.cell ≠ .long := by
  rcases r with kind | _ | _ <;> first | decide | cases kind <;> decide

namespace MethodDescriptor

/-- The receiver, unless the method is static, then the arguments. -/
def cells (d : MethodDescriptor) (access : Access) : List Cell :=
  (if access.isStatic then [] else [.ref]) ++ d.params.map FieldType.cell

theorem argWidth_eq (d : MethodDescriptor) :
    d.argWidth = Cell.span (d.params.map FieldType.cell) := by
  unfold argWidth
  induction d.params with
  | nil => rfl
  | cons t ts ih => rw [List.foldr_cons, ih, List.map_cons, Cell.span_cons, FieldType.slots_eq]

/-- Arguments that stand behind the cells `before` have their own. -/
theorem at?_offsets {ts : List FieldType} {before : List Cell} {a : Arg}
    (h : a ∈ List.zipWith Arg.mk (offsetsFrom (Cell.span before) ts) ts) :
    Cell.at? (before ++ ts.map FieldType.cell) a.slot = some a.type.cell := by
  induction ts generalizing before with
  | nil => simp [offsetsFrom] at h
  | cons t ts ih =>
    rw [offsetsFrom, List.zipWith_cons_cons, List.mem_cons] at h
    rcases h with rfl | h
    · exact Cell.at?_span before t.cell (ts.map FieldType.cell)
    · have hnext : Cell.span before + t.slots = Cell.span (before ++ [t.cell]) := by
        simp [FieldType.slots_eq]
      rw [hnext] at h
      simpa using ih h

end MethodDescriptor

/-- A frame begins with the cells of its receiver and its arguments. -/
theorem Frame.start_cells {access : Access} {name descriptor : String} {frame : Frame}
    (h : Frame.start access name descriptor = .ok frame) :
    ∃ d, MethodDescriptor.parse descriptor = .ok d ∧ frame.access = access ∧ frame.descriptor =
      descriptor ∧
      frame.nextSlot = Cell.span (d.cells access) ∧
      (∀ a ∈ frame.args, Cell.at? (d.cells access) a.slot = some a.type.cell) ∧
      (access.isStatic = false → Cell.at? (d.cells access) 0 = some .ref) := by
  unfold Frame.start at h
  cases hparse : MethodDescriptor.parse descriptor with
  | error e => simp [hparse, Except.map] at h
  | ok d =>
    rw [hparse] at h
    cases h
    have hbase : (if access.isStatic then 0 else 1) =
        Cell.span (if access.isStatic then [] else [.ref]) := by
      split_ifs <;> rfl
    refine ⟨d, rfl, rfl, rfl, ?_, fun a ha => ?_, fun hstatic => ?_⟩
    · rw [MethodDescriptor.cells, Cell.span_append, ← MethodDescriptor.argWidth_eq, hbase]
    · change a ∈ List.zipWith Arg.mk
        (MethodDescriptor.offsetsFrom (if access.isStatic then 0 else 1) d.params) d.params
        at ha
      rw [hbase] at ha
      exact MethodDescriptor.at?_offsets ha
    · simp [MethodDescriptor.cells, hstatic, Cell.at?_cons]

/-! ### Methods -/

/-- The slots of the method are the cells of its receiver and arguments, then these; every access is
to the first slot of one, with an instruction of its kind. -/
structure Method.Partition (m : Method) (d : MethodDescriptor) (locals : List Cell) : Prop where
  span : Cell.span (d.cells m.access ++ locals) = m.maxLocals.toNat
  accesses : ∀ op n, .slot op n ∈ m.code →
    ∃ k, Cell.at? (d.cells m.access ++ locals) n.toNat = some k ∧ k.Has op

/-- Two accesses are to one variable or to slots that do not overlap, and none goes past the last
slot. -/
theorem Method.Partition.apart {m : Method} {d : MethodDescriptor} {locals : List Cell}
    (h : m.Partition d locals) {op op' : Opcode} {n n' : UInt16} (hop : .slot op n ∈ m.code)
    (hop' : .slot op' n' ∈ m.code) :
    ∃ k k' : Cell, k.Has op ∧ k'.Has op' ∧ n.toNat + k.width ≤ m.maxLocals.toNat ∧
      (n = n' ∧ k = k' ∨ n.toNat + k.width ≤ n'.toNat ∨ n'.toNat + k'.width ≤ n.toNat) := by
  obtain ⟨k, hk, hhas⟩ := h.accesses op n hop
  obtain ⟨k', hk', hhas'⟩ := h.accesses op' n' hop'
  refine ⟨k, k', hhas, hhas', h.span ▸ Cell.at?_le hk, ?_⟩
  rcases Cell.at?_apart hk hk' with heq | hapart
  · rw [heq, hk'] at hk
    exact .inl ⟨UInt16.toNat_inj.mp heq, (Option.some.inj hk).symm⟩
  · exact .inr hapart

end ClassGen
