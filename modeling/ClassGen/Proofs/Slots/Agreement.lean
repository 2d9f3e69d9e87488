import ClassGen.Proofs.Slots.Params

/-! Types and descriptors agree on layout. What a type takes of the slots and which instructions
access it is said twice: by its representation, and by the field type that is read where its
descriptor was written. -/

namespace ClassGen

/-- The first slot that the receiver leaves free. -/
def Access.firstSlot (access : Access) : Nat := if access.isStatic then 0 else 1

namespace Ty

variable {types : List Ty} {i : Nat} {t : Ty}

/-- A value ends where all those after it leave room. -/
theorem slotsOf_take_add_le (hi : types[i]? = some t) :
    slotsOf (types.take i) + t.representation.slots ≤ slotsOf types := by
  have hsplit := List.take_append_drop i types
  obtain ⟨hlt, hget⟩ := List.getElem?_eq_some_iff.mp hi
  rw [List.drop_eq_getElem_cons hlt, hget] at hsplit
  have hsum : slotsOf types = slotsOf
      (types.take i) + (t.representation.slots + slotsOf (types.drop (i + 1))) := by
    conv_lhs => rw [← hsplit]
    simp [slotsOf]
  omega

end Ty

namespace Arg

variable {t : Ty} {f : FieldType}

/-- An argument is accessed as a local of its representation. -/
theorem load_eq (h : t.fieldType? = some f) (slot : Nat) :
    Arg.load ⟨slot, f⟩ = Code.loadSlot slot t.representation := by
  rw [load, Code.loadSlot, loadOp_eq, Representation.loadOp_eq, Ty.cell_fieldType h]

theorem store_eq (h : t.fieldType? = some f) (slot : Nat) :
    Arg.store ⟨slot, f⟩ = Code.storeSlot slot t.representation := by
  rw [store, Code.storeSlot, storeOp_eq, Representation.storeOp_eq, Ty.cell_fieldType h]

end Arg

namespace Frame

/-- The frame has an argument for each of these types. Argument `i` is loaded and stored as a local
of its type at the slot behind the arguments before it, and there is no other. The locals begin
behind the last one. -/
structure LaysOut (frame : Frame) (base : Nat) (types : List Ty) : Prop where
  load : ∀ i t, types[i]? = some t →
    frame.loadArg i = [Code.loadSlot (base + Ty.slotsOf (types.take i)) t.representation]
  store : ∀ i t, types[i]? = some t →
    frame.storeArg i = [Code.storeSlot (base + Ty.slotsOf (types.take i)) t.representation]
  /-- The instructions name these slots and no others, since they are in range. -/
  narrow : ∀ i t, types[i]? = some t → base + Ty.slotsOf (types.take i) < 2 ^ 16
  loadsNone : ∀ i, frame.loadArg i = [] ↔ types.length ≤ i
  storesNone : ∀ i, frame.storeArg i = [] ↔ types.length ≤ i
  newSlot : ∀ repr, (frame.newSlot repr).1 = base + Ty.slotsOf types

variable {frame : Frame} {types : List Ty} {d : MethodDescriptor} {base : Nat}

/-- What a frame with the arguments of a descriptor has at position `i`. -/
theorem args_getElem? {i : Nat} {t : Ty}
    (hargs : frame.args = List.zipWith Arg.mk (d.argOffsets base) d.params)
    (htypes : types.map Ty.fieldType? = d.params.map some) (hi : types[i]? = some t) :
    ∃ f, t.fieldType? = some f ∧ frame.args[i]? = some ⟨base + Ty.slotsOf (types.take i), f⟩ := by
  obtain ⟨f, hf, hfield⟩ := Ty.getElem?_fieldTypes htypes hi
  have hslots : ((d.params.take i).map FieldType.slots).sum = Ty.slotsOf (types.take i) :=
    Ty.slots_fieldTypes (by rw [List.map_take, List.map_take, htypes])
  have hoffset : (d.argOffsets base)[i]? = some (base + Ty.slotsOf (types.take i)) := by
    rw [← hslots]
    exact MethodDescriptor.offsetsFrom_getElem? base (List.getElem?_eq_some_iff.mp hf).1
  exact ⟨f, hfield, by rw [hargs, List.getElem?_zipWith, hoffset, hf]⟩

theorem laysOut (hargs : frame.args = List.zipWith Arg.mk (d.argOffsets base) d.params)
    (hnext : frame.nextSlot = base + d.argWidth)
    (htypes : types.map Ty.fieldType? = d.params.map some) (hslots : d.argWidth = Ty.slotsOf types)
    (hfit : base + Ty.slotsOf types < 2 ^ 16) : frame.LaysOut base types := by
  have hlength : frame.args.length = types.length := by
    have hcount := congrArg List.length htypes
    rw [List.length_map, List.length_map] at hcount
    rw [hargs, List.length_zipWith, MethodDescriptor.argOffsets,
      MethodDescriptor.offsetsFrom_length, Nat.min_self, hcount]
  refine ⟨fun i t hi => ?_, fun i t hi => ?_, fun i t hi => ?_, fun i => ?_, fun i => ?_,
    fun repr => ?_⟩
  · obtain ⟨f, hf, harg⟩ := args_getElem? hargs htypes hi
    rw [loadArg, harg, Option.map_some, Option.toList_some, Arg.load_eq hf]
  · obtain ⟨f, hf, harg⟩ := args_getElem? hargs htypes hi
    rw [storeArg, harg, Option.map_some, Option.toList_some, Arg.store_eq hf]
  · have hle := Ty.slotsOf_take_add_le hi
    omega
  · rw [loadArg, Option.toList_eq_nil_iff, Option.map_eq_none_iff,
      List.getElem?_eq_none_iff, hlength]
  · rw [storeArg, Option.toList_eq_nil_iff, Option.map_eq_none_iff,
      List.getElem?_eq_none_iff, hlength]
  · rw [newSlot, hnext, hslots]

end Frame

/-- Where types have values and proper class names, and their slots can be counted in sixteen bits,
the descriptor that is written from them is read again, with a parameter for each and with the slots
that they take. Every method with this descriptor, static or not, whose receiver leaves room for
them lays its arguments out as the types say. -/
theorem methodDescriptor_lays_out {params : List Ty} {ret : Ty}
    (hvalues : ∀ t ∈ params, t.isVoid = false) (hfit : Ty.slotsOf params < 2 ^ 16)
    (hnamed : ∀ t ∈ params, t.isNamed) (hret : ret.isNamed) :
    ∃ d, MethodDescriptor.parse (methodDescriptor params ret) = .ok d ∧ d.params.length =
      params.length ∧
      d.argSlots.toNat = Ty.slotsOf params ∧ d.returnSlots = ret.representation.slots ∧
      ∀ (access : Access) (name : String), access.firstSlot + Ty.slotsOf params < 2 ^ 16 → ∃ frame,
        Frame.start access name (methodDescriptor params ret) = .ok frame ∧
          frame.LaysOut access.firstSlot params := by
  obtain ⟨fields, hfields⟩ := exists_fieldTypes hvalues
  have hparse := parse_methodDescriptor hfields hnamed hret
  have hwidth : MethodDescriptor.argWidth ⟨fields, ret.fieldType?⟩ = Ty.slotsOf params :=
    Ty.argWidth_fieldTypes hfields
  have hslots : (MethodDescriptor.argSlots ⟨fields, ret.fieldType?⟩).toNat = Ty.slotsOf params := by
    rw [MethodDescriptor.argSlots_eq, hwidth]
    exact UInt16.toNat_ofNat_of_lt' hfit
  have hlength : fields.length = params.length := by simpa using (congrArg List.length hfields).symm
  refine ⟨_, hparse, hlength, hslots, ret.slots_fieldType, fun access name hroom => ?_⟩
  rw [Frame.start, hparse]
  exact ⟨_, rfl, Frame.laysOut rfl rfl hfields hwidth hroom⟩

/-- A double between a number and a struct, in an instance method that returns a list. -/
theorem methodDescriptor_lays_out_mixed :
    ∃ d frame, MethodDescriptor.parse (methodDescriptor [.int, .double, .struct ⟨"P", "m$P", []⟩ []]
      (.list .int)) = .ok d ∧
      d.argSlots.toNat = 4 ∧ d.returnSlots = 1 ∧
      Frame.start .publicFlag "f" (methodDescriptor [.int, .double, .struct ⟨"P", "m$P", []⟩ []]
        (.list .int)) = .ok frame ∧
      frame.loadArg 1 = [.slot .dload 2] ∧ frame.storeArg 2 = [.slot .astore 4] ∧
        frame.loadArg 3 = [] ∧
      (frame.newSlot .reference).1 = 5 := by
  obtain ⟨d, hparse, -, hargs, hret, hframes⟩ :=
    @methodDescriptor_lays_out [.int, .double, .struct ⟨"P", "m$P", []⟩ []] (.list .int)
      (by decide) (by decide)
      (by decide) (by decide)
  obtain ⟨frame, hstart, hlaid⟩ := hframes .publicFlag "f" (by decide)
  exact ⟨d, frame, hparse, hargs, hret, hstart, hlaid.load 1 _ rfl, hlaid.store 2 _ rfl,
    (hlaid.loadsNone 3).mpr (Nat.le_refl 3), hlaid.newSlot .reference⟩

end ClassGen
