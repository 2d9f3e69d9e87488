import ClassGen.Proofs.ControlFlow.Closed
import ClassGen.Proofs.Objects.Machine
import ClassGen.Proofs.Slots.Params

/-! The methods of a struct, executed. The constructor leaves every argument in the field of its
position, and the textual form shows all fields in their order. -/

namespace ClassGen.Objects

open Preservation (fallsThrough_append fallsThrough_concat)

variable {w : World} {d : StructDef} {locals : UInt16 → Option Value} {objects : List Object}
  {builders : List (Option String)} {stack : List Value} {address : Nat} {o : Object}

/-! ### Storing the fields -/

/-- The fields of an object after the values were stored in these, one by one. -/
def stored (d : StructDef) : (Member → Option Value) → List (String × Ty) → List Value → Member →
    Option Value
  | fields, [], _ | fields, _ :: _, [] => fields
  | fields, (name, t) :: rest, v :: values =>
    stored d (Function.update fields (fieldMember d name t) (some v)) rest values

theorem stored_of_forall_ne {fields : Member → Option Value} {list : List (String × Ty)}
    {values : List Value} {m : Member} (h : ∀ f ∈ list, m ≠ fieldMember d f.1 f.2) :
    stored d fields list values m = fields m := by
  induction list generalizing fields values with
  | nil => rw [stored]
  | cons f list ih =>
    cases values with
    | nil => rw [stored]
    | cons v values =>
      rw [List.forall_mem_cons] at h
      rw [stored, ih h.2, Function.update_of_ne h.1]

/-- A field holds the value of its position. -/
theorem stored_getElem? {fields : Member → Option Value} {list : List (String × Ty)}
    {values : List Value} {i : Nat} {f : String × Ty} {v : Value}
    (hnames : (list.map Prod.fst).Nodup) (hf : list[i]? = some f) (hv : values[i]? = some v) :
    stored d fields list values (fieldMember d f.1 f.2) = some v := by
  induction list generalizing fields values i with
  | nil => cases hf
  | cons g list ih =>
    cases values with
    | nil => cases hv
    | cons u values =>
      rw [List.map_cons, List.nodup_cons] at hnames
      rw [stored]
      cases i with
      | zero =>
        obtain rfl : g = f := Option.some.inj hf
        obtain rfl : u = v := Option.some.inj hv
        -- no later field has the name
        have hlater : ∀ h ∈ list, fieldMember d g.1 g.2 ≠ fieldMember d h.1 h.2 := fun h hh heq =>
          hnames.1 (List.mem_map.mpr ⟨h, hh, (congrArg Member.name heq).symm⟩)
        rw [stored_of_forall_ne hlater, Function.update_self]
      | succ i => exact ih hnames.2 hf hv

/-- Argument `i` of the constructor is the value `v`, which the field `f` can hold. -/
structure Arrives (w : World) (d : StructDef) (frame : Frame)
    (locals : UInt16 → Option Value) (i : Nat) (f : String × Ty) (v : Value) : Prop where
  declared : w.declares (fieldMember d f.1 f.2) = true
  load : ∃ slot, frame.loadArg i = [.slot v.loadOp slot] ∧ locals slot = some v
  fits : ∃ type, FieldType.parse f.2.descriptor = .ok type ∧ v.isOf type = true

theorem exec_storeField {frame : Frame} {i : Nat} {f : String × Ty} {v : Value}
    (hthis : locals 0 = some (.object address)) (ho : objects[address]? = some o)
    (hclass : o.className = d.qualifiedName) (h : Arrives w d frame locals i f v) :
    exec w ([Code.loadThis] ++ frame.loadArg i ++ [Code.putField (fieldMember d f.1 f.2)])
        ⟨stack, locals, objects, builders⟩ =
      some ⟨stack, locals, objects.set address
        { o with fields := Function.update o.fields (fieldMember d f.1 f.2) (some v) },
        builders⟩ := by
  obtain ⟨slot, hload, hslot⟩ := h.load
  obtain ⟨type, htype, hv⟩ := h.fits
  rw [hload]
  simp only [List.cons_append, List.nil_append, exec_cons, act_loadThis hthis, act_load hslot,
    Option.bind_some, act_putField h.declared ho hclass htype hv, exec_nil]

/-- The fields are stored one after another, each from the argument of its position. -/
theorem exec_storeFields {frame : Frame} {list : List (String × Ty)} {values : List Value}
    {index : Nat} (hthis : locals 0 = some (.object address))
    (hlength : values.length = list.length)
    (hargs : ∀ i f v, list[i]? = some f → values[i]? = some v →
      Arrives w d frame locals (index + i) f v) (ho : objects[address]? = some o) (hclass :
        o.className = d.qualifiedName) :
    exec w (storeFields frame d index list) ⟨stack, locals, objects, builders⟩ =
      some ⟨stack, locals, objects.set address { o with fields := stored d o.fields list values },
        builders⟩ := by
  induction list generalizing values index objects o with
  | nil =>
    obtain ⟨hlt, rfl⟩ := List.getElem?_eq_some_iff.mp ho
    rw [storeFields, stored, exec_nil]
    exact congrArg (fun l => some (State.mk stack locals l builders))
      (List.set_getElem_self hlt).symm
  | cons f list ih =>
    cases values with
    | nil => cases hlength
    | cons v values =>
      let next : Object :=
        { o with fields := Function.update o.fields (fieldMember d f.1 f.2) (some v) }
      have hnext : (objects.set address next)[address]? = some next :=
        List.getElem?_set_self (List.getElem?_eq_some_iff.mp ho).1
      have hrest : ∀ i g u, list[i]? = some g → values[i]? = some u →
          Arrives w d frame locals (index + 1 + i) g u := by
        intro i g u hg hu
        rw [Nat.add_assoc, Nat.add_comm 1]
        exact hargs (i + 1) g u hg hu
      rw [storeFields, stored]
      refine exec_trans (exec_storeField hthis ho hclass (hargs 0 f v rfl rfl)) ?_
      rw [ih (Nat.succ.inj hlength) hrest hnext hclass, List.set_set]

/-- First the base class is constructed, then the fields are stored. -/
theorem exec_constructorCode {frame : Frame} {values : List Value}
    (hthis : locals 0 = some (.object address)) (hlength : values.length = d.fields.length)
    (hargs : ∀ i f v, d.fields[i]? = some f → values[i]? = some v → Arrives w d frame locals i f v)
    (ho : objects[address]? = some o) (hclass : o.className = d.qualifiedName)
    (hready : o.isReady = false) :
    exec w (d.constructorCode frame) ⟨stack, locals, objects, builders⟩ =
      some ⟨stack, locals, objects.set address
        { className := o.className, isReady := true, fields := stored d o.fields d.fields values },
        builders⟩ := by
  let begun : Object := { o with isReady := true }
  have hbegun : (objects.set address begun)[address]? = some begun :=
    List.getElem?_set_self (List.getElem?_eq_some_iff.mp ho).1
  have hinit : exec w [Code.loadThis, Code.callSpecial Library.objectInit]
      ⟨stack, locals, objects, builders⟩ =
      some ⟨stack, locals, objects.set address begun, builders⟩ := by
    simp only [exec_cons, act_loadThis hthis, Option.bind_some, act_objectInit ho hready,
      exec_nil, begun]
  have hfields : ∀ i f v, d.fields[i]? = some f → values[i]? = some v →
      Arrives w d frame locals (0 + i) f v := by
    intro i f v hf hv
    rw [Nat.zero_add]
    exact hargs i f v hf hv
  refine exec_trans hinit ?_
  rw [exec_storeFields hthis hlength hfields hbegun hclass, List.set_set]

/-! ### Showing the fields -/

/-- The entries with a comma before each, the first apart if `first` is set. -/
def separated : Bool → List String → String
  | _, [] => ""
  | first, entry :: rest => (if first then "" else ", ") ++ entry ++ separated false rest

theorem separated_eq (entries : List String) :
    separated true entries = String.intercalate ", " entries := by
  cases entries with
  | nil => rfl
  | cons entry rest =>
    rw [separated, if_pos rfl, String.empty_append]
    induction rest generalizing entry with
    | nil => simp [separated]
    | cons next rest ih =>
      rw [separated, if_neg Bool.false_ne_true, String.intercalate_cons_cons, ← ih next]
      simp only [String.append_assoc]

/-- What the text shows of a field. -/
def entry (f : String × Ty) (text : String) : String := f.1 ++ "=" ++ text

/-- The object holds the value in the field, which is of the type of the field, and a builder writes
it as the text. -/
structure Shows (w : World) (d : StructDef) (objects : List Object) (o : Object)
    (f : String × Ty) (v : Value) (text : String) : Prop where
  field : o.fields (fieldMember d f.1 f.2) = some v
  fits : ∃ type, f.2.fieldType? = some type ∧ v.isOf type = true
  rendered : w.render objects (appended f.2) v = some text

/-- What a field holds can be appended. -/
theorem isOf_appended {t : Ty} {type : FieldType} {v : Value} (htype : t.fieldType? = some type)
    (h : v.isOf type = true) : v.isOf (appended t) = true := by
  cases t with
  | primitive kind => cases kind <;> cases htype <;> exact h
  | _ =>
    cases htype
    exact h

theorem exec_appendField {f : String × Ty} {v : Value} {label text written : String} {builder : Nat}
    (hthis : locals 0 = some (.object address)) (ho : objects[address]? = some o)
    (hclass : o.className = d.qualifiedName) (hready : o.isReady = true)
    (hdeclared : w.declares (fieldMember d f.1 f.2) = true) (h : Shows w d objects o f v text)
    (hb : builders[builder]? = some (some written)) :
    exec w [Code.pushText label, appendValue .string, Code.loadThis,
      Code.getField (fieldMember d f.1 f.2),
        appendValue f.2] ⟨.builder builder :: stack, locals, objects, builders⟩ =
      some ⟨.builder builder :: stack, locals, objects,
        builders.set builder (some (written ++ label ++ text))⟩ := by
  have hlt := (List.getElem?_eq_some_iff.mp hb).1
  obtain ⟨type, htype, hv⟩ := h.fits
  have hlabel : (builders.set builder (some (written ++ label)))[builder]? =
      some (some (written ++ label)) :=
    List.getElem?_set_self hlt
  simp only [exec_cons, act_pushText, Option.bind_some, act_appendText hb, act_loadThis hthis,
    act_getField hdeclared ho hclass hready h.field, act_append hlabel (isOf_appended htype hv)
      h.rendered, exec_nil,
    List.set_set]

/-- The builder gets the entries of the fields, from the first to the last. -/
theorem exec_appendFields {list : List (String × Ty)} {values : List Value} {texts : List String}
    {first : Bool} {written : String} {builder : Nat} (hthis : locals 0 = some (.object address))
    (ho : objects[address]? = some o) (hclass : o.className = d.qualifiedName)
    (hready : o.isReady = true) (hdeclared : ∀ f ∈ list, w.declares (fieldMember d f.1 f.2) = true)
    (hvalues : values.length = list.length) (htexts : texts.length = list.length)
    (hshows : ∀ (i : Nat) f v text, list[i]? = some f → values[i]? = some v →
      texts[i]? = some text →
      Shows w d objects o f v text)
    (hb : builders[builder]? = some (some written)) :
    exec w (appendFields d first list) ⟨.builder builder :: stack, locals, objects, builders⟩ =
      some ⟨.builder builder :: stack, locals, objects,
        builders.set builder
          (some (written ++ separated first (List.zipWith entry list texts)))⟩ := by
  induction list generalizing values texts first written builders with
  | nil =>
    obtain ⟨hlt, hwritten⟩ := List.getElem?_eq_some_iff.mp hb
    rw [appendFields, List.zipWith_nil_left, separated, String.append_empty, exec_nil, ← hwritten,
      List.set_getElem_self hlt]
  | cons f list ih =>
    obtain ⟨v, values, rfl⟩ := List.exists_cons_of_length_eq_add_one hvalues
    obtain ⟨text, texts, rfl⟩ := List.exists_cons_of_length_eq_add_one htexts
    have hfirst := hshows 0 f v text rfl rfl rfl
    rw [List.forall_mem_cons] at hdeclared
    rw [appendFields]
    refine exec_trans (exec_appendField hthis ho hclass hready hdeclared.1 hfirst hb) ?_
    have hlt := (List.getElem?_eq_some_iff.mp hb).1
    rw [ih hdeclared.2 (Nat.succ.inj hvalues) (Nat.succ.inj htexts) (fun i => hshows (i + 1))
      (List.getElem?_set_self hlt), List.set_set, List.zipWith_cons_cons, separated, entry]
    simp only [String.append_assoc]

/-- `Name[a=1, b=x]`, or `Name[]`. -/
def shownAs (d : StructDef) (texts : List String) : String :=
  d.name ++ "[" ++ String.intercalate ", " (List.zipWith entry d.fields texts) ++ "]"

theorem returns_toStringCode {values : List Value} {texts : List String}
    (hthis : locals 0 = some (.object address)) (ho : objects[address]? = some o)
    (hclass : o.className = d.qualifiedName) (hready : o.isReady = true)
    (hdeclared : ∀ f ∈ d.fields, w.declares (fieldMember d f.1 f.2) = true)
    (hvalues : values.length = d.fields.length) (htexts : texts.length = d.fields.length)
    (hshows : ∀ (i : Nat) f v text, d.fields[i]? = some f → values[i]? = some v →
      texts[i]? = some text →
      Shows w d objects o f v text) :
    ∃ τ, Returns w d.toStringCode ⟨[], locals, objects, builders⟩
      (some (.text (shownAs d texts))) τ ∧
      τ.objects = objects := by
  unfold StructDef.toStringCode
  split_ifs with hempty
  · have hname : shownAs d texts = d.name ++ "[]" := by
      rw [shownAs, List.isEmpty_iff.mp hempty, List.zipWith_nil_left, String.intercalate_nil,
        String.append_empty, String.append_assoc]
      rfl
    rw [hname]
    exact ⟨_, returns_of_exec (a := [Code.pushText (d.name ++ "[]")]) rfl rfl, rfl⟩
  · have hopened : (builders ++ [some (d.name ++ "[")])[builders.length]? =
        some (some (d.name ++ "[")) :=
      List.getElem?_concat_length
    have htext : d.name ++ "[" ++ separated true (List.zipWith entry d.fields texts) ++ "]" =
        shownAs d texts := by
      rw [shownAs, separated_eq]
    obtain ⟨after, hcode⟩ : ∃ after,
        exec w ([Code.new Library.stringBuilder, .op .dup, Code.pushText (d.name ++ "["),
          Code.callSpecial Library.builderInitText] ++ appendFields d true d.fields ++
        [Code.pushText "]", appendValue .string, Code.callVirtual Library.builderToString])
        ⟨[], locals, objects, builders⟩ = some ⟨[.text (shownAs d texts)], locals, objects,
          after⟩ := by
      rw [← htext]
      refine ⟨_, exec_trans (exec_trans (exec_newBuilder (d.name ++ "["))
        (exec_appendFields hthis ho hclass hready hdeclared hvalues htexts hshows hopened))
          (exec_lastText "]" ?_)⟩
      exact List.getElem?_set_self (List.getElem?_eq_some_iff.mp hopened).1
    have hreturns := returns_of_exec (i := .op .areturn) hcode rfl
    rw [List.append_assoc] at hreturns
    exact ⟨_, hreturns, rfl⟩

/-! ### The methods -/

/-- Entered with a value for each field, the method makes the object ready and leaves every value in
its field. Nothing else changes. -/
def Constructs (w : World) (d : StructDef) (m : Method) : Prop :=
  ∀ (σ : State) (address : Nat) (o : Object) (values : List Value),
    Enters m (.object address) values σ → σ.objects[address]? = some o →
    o.className = d.qualifiedName → o.isReady = false →
    ∃ made : Object, Returns w m.code σ none { σ with objects := σ.objects.set address made } ∧
      made.className = o.className ∧ made.isReady = true ∧
      (∀ (i : Nat) f v, d.fields[i]? = some f → values[i]? = some v →
        made.fields ⟨d.qualifiedName, f.1, f.2.descriptor⟩ = some v) ∧
      ∀ target, (∀ f ∈ d.fields, target ≠ ⟨d.qualifiedName, f.1, f.2.descriptor⟩) →
        made.fields target = o.fields target

/-- Entered on an object whose fields show as `texts`, the method returns the text of the struct. No
object changes. -/
def Describes (w : World) (d : StructDef) (m : Method) : Prop :=
  ∀ (σ : State) (address : Nat) (o : Object) (values : List Value) (texts : List String),
    Enters m (.object address) [] σ → σ.objects[address]? = some o →
    o.className = d.qualifiedName → o.isReady = true → values.length = d.fields.length →
    texts.length = d.fields.length →
    (∀ (i : Nat) f v text, d.fields[i]? = some f → values[i]? = some v → texts[i]? = some text →
      Shows w d σ.objects o f v text) →
    ∃ τ, Returns w m.code σ (some (.text (shownAs d texts))) τ ∧ τ.objects = σ.objects

theorem loadOp_of_isOf {v : Value} {type : FieldType} (h : v.isOf type = true) :
    v.loadOp = type.cell.loadOp := by
  cases type <;> cases v <;> first | rfl | cases h

/-- Arguments arrive where the code of the constructor loads them from. -/
theorem arrives_of_enters {frame : Frame} {code : Code} {receiver : Value}
    {values : List Value} {σ : State}
    (hframe : Frame.start .publicFlag Library.constructor d.constructorDescriptor = .ok frame)
    (hnamed : ∀ f ∈ d.fields, f.2.isNamed)
    (hdeclared : ∀ f ∈ d.fields, w.declares (fieldMember d f.1 f.2) = true)
    (h : Enters (frame.finish code) receiver values σ) :
    values.length = d.fields.length ∧
      ∀ (i : Nat) f v, d.fields[i]? = some f → values[i]? = some v →
        Arrives w d frame σ.locals i f v := by
  obtain ⟨parsed, hparse, hlength, hargs⟩ := h.args
  obtain ⟨parsed', hparse', hdescriptor, hlaid⟩ := Frame.start_args hframe
  rw [show (frame.finish code).descriptor = d.constructorDescriptor from hdescriptor,
    hparse'] at hparse
  cases hparse
  rw [constructorDescriptor_eq] at hparse'
  have hfields := fields_written hparse' hnamed
  refine ⟨?_, fun i f v hf hv => ?_⟩
  · have hcount := congrArg List.length hfields
    rw [List.length_map, List.length_map] at hcount
    rw [hlength, hcount]
  · obtain ⟨type, htype, hfield⟩ := getElem?_written hfields hf
    obtain ⟨hv, slot, hslot, hlocal⟩ := hargs i type v htype hv
    have hmem := List.mem_of_getElem? hf
    refine ⟨hdeclared f hmem, ?_, type, Ty.parse_descriptor hfield (hnamed f hmem), hv⟩
    have hlt : 1 + ((parsed.params.take i).map FieldType.slots).sum < 2 ^ 16 :=
      hslot ▸ slot.toNat_lt
    obtain ⟨slot', hat, hload, -⟩ :=
      (Frame.accesses_iff hlaid).mpr ⟨type, htype, Ty.cell_fieldType hfield, hlt⟩
    have hsame : slot' = slot := by
      have hoffset := MethodDescriptor.offsetsFrom_getElem? 1 (List.getElem?_eq_some_iff.mp htype).1
      exact UInt16.toNat_inj.mp (Option.some.inj (hat.symm.trans (hslot ▸ hoffset)))
    have hop : v.loadOp = f.2.representation.loadOp := by
      rw [loadOp_of_isOf hv, Ty.cell_fieldType hfield, Representation.loadOp_eq]
    exact ⟨slot, hop ▸ hsame ▸ hload, hlocal⟩

theorem fallsThrough_storeFields (frame : Frame) (d : StructDef) (index : Nat)
    (list : List (String × Ty)) : Code.fallsThrough (storeFields frame d index list) = true := by
  induction list generalizing index with
  | nil => rfl
  | cons f list ih =>
    rw [storeFields, fallsThrough_append]
    split_ifs
    · exact fallsThrough_concat rfl
    · exact ih (index + 1)

/-- The constructor ends with a return. -/
theorem code_constructor {frame : Frame}
    (hframe : Frame.start .publicFlag Library.constructor d.constructorDescriptor = .ok frame) :
    (frame.finish (d.constructorCode frame)).code = d.constructorCode frame ++
      [Instr.op .vreturn] := by
  have hfalls : Code.fallsThrough (d.constructorCode frame) = true := by
    rw [StructDef.constructorCode, fallsThrough_append, fallsThrough_storeFields]
    split_ifs <;> rfl
  have hvoid : frame.returnsVoid = true := by
    rw [constructorDescriptor_eq] at hframe
    exact Frame.start_void hframe (getLast?_methodDescriptor rfl)
  exact if_pos (by rw [hfalls, hvoid]; rfl)

/-- Its locals are the receiver and the arguments. -/
theorem maxLocals_constructor {frame : Frame} {types : List FieldType} {code : Code}
    (hframe : Frame.start .publicFlag Library.constructor d.constructorDescriptor = .ok frame)
    (hparse : MethodDescriptor.parse d.constructorDescriptor = .ok ⟨types, none⟩)
    (htypes : (d.fields.map Prod.snd).map Ty.fieldType? = types.map some)
    (hfit : 1 + Ty.slotsOf (d.fields.map Prod.snd) < 2 ^ 16) :
    (frame.finish code).maxLocals.toNat = 1 + Ty.slotsOf (d.fields.map Prod.snd) := by
  have hwidth : MethodDescriptor.argWidth ⟨types, none⟩ = _ := Ty.argWidth_fieldTypes htypes
  have hnext : frame.nextSlot = 1 + Ty.slotsOf (d.fields.map Prod.snd) := by
    rw [Frame.start, hparse] at hframe
    cases hframe
    rw [← hwidth]
    rfl
  rw [Frame.finish, hnext]
  exact UInt16.toNat_ofNat_of_lt' hfit

theorem constructs {frame : Frame}
    (hframe : Frame.start .publicFlag Library.constructor d.constructorDescriptor = .ok frame)
    (hnames : (d.fields.map Prod.fst).Nodup) (hnamed : ∀ f ∈ d.fields, f.2.isNamed)
    (hdeclared : ∀ f ∈ d.fields, w.declares (fieldMember d f.1 f.2) = true) :
    Constructs w d (frame.finish (d.constructorCode frame)) := by
  intro σ address o values henters ho hclass hready
  obtain ⟨hlength, hargs⟩ := arrives_of_enters hframe hnamed hdeclared henters
  refine ⟨⟨o.className, true, stored d o.fields d.fields values⟩, ?_, rfl, rfl,
    fun i f v hf hv => ?_, fun target hne => ?_⟩
  · rw [code_constructor hframe]
    exact returns_of_exec (exec_constructorCode henters.receiver hlength hargs ho hclass hready) rfl
  · exact stored_getElem? hnames hf hv
  · exact stored_of_forall_ne hne

theorem describes {frame : Frame}
    (hdeclared : ∀ f ∈ d.fields, w.declares (fieldMember d f.1 f.2) = true) :
    Describes w d (frame.finish d.toStringCode) := by
  intro σ address o values texts henters ho hclass hready hvalues htexts hshows
  have hcode : (frame.finish d.toStringCode).code = d.toStringCode :=
    if_neg (by rw [d.fallsThrough_toStringCode]; exact Bool.false_ne_true)
  obtain ⟨stack, locals, objects, builders⟩ := σ
  obtain rfl : stack = [] := henters.stack
  rw [hcode]
  exact returns_toStringCode henters.receiver ho hclass hready hdeclared hvalues htexts hshows

/-! ### The unit -/

theorem exists_start {descriptor : String} {parsed : MethodDescriptor} (access : Access)
    (name : String) (h : MethodDescriptor.parse descriptor = .ok parsed) :
    ∃ frame, Frame.start access name descriptor = .ok frame := by
  rw [Frame.start, h]
  exact ⟨_, rfl⟩

theorem parse_textDescriptor :
    MethodDescriptor.parse "()Ljava/lang/String;" =
      .ok ⟨[], some (.object Library.string)⟩ := by decide

theorem declares_of_mem {u : ClassUnit} {f : Field} {target : Member} (hu : u ∈ w.units)
    (howner : u.name = target.owner) (hf : f ∈ u.fields) (hname : f.name = target.name)
    (hdescriptor : f.descriptor = target.descriptor) : w.declares target = true := by
  refine List.any_eq_true.mpr ⟨u, hu, ?_⟩
  rw [Bool.and_eq_true, beq_iff_eq]
  exact ⟨howner, List.any_eq_true.mpr ⟨f, hf, by simp [hname, hdescriptor]⟩⟩

/-- The first declaration of a struct emits its unit. -/
theorem lowerStruct_emits {file : FileContext} {s : LowerState} {scope : ScopeId} {name : String}
    {span : Span} {bindings : Bindings} {u : ClassUnit}
    (hlookup : file.scopes.lookup scope name = some (.struct d bindings))
    (hfirst : s.file.structs.any (·.name == d.qualifiedName) = false)
    (hunit : d.unit file s = .ok u s) :
    ∃ t, lowerStruct file scope name span s = .ok () t ∧ t.file.structs =
      s.file.structs ++ [u] := by
  let t : LowerState := { s.logged (.struct d.name d.qualifiedName d.fields.length) with
    file.structs := s.file.structs ++ [u] }
  refine ⟨t, lowerStruct_iff.mpr ⟨d, bindings, hlookup, ?_⟩, rfl⟩
  rw [if_neg (Bool.eq_false_iff.mp hfirst)]
  exact ⟨u, hunit, rfl⟩

/-- Code that makes an object of the struct ends with the call of its constructor, as it is spelled
from the arguments. There is one for each field, so that this is the descriptor of the unit. -/
theorem lowerExpr_construct {cx : BodyContext} {note : Note} {callee : Expr} {args : List Expr}
    {bindings : Bindings} {s t : LowerState} {v : Lowered}
    (hcallee : cx.callee? callee = some (.struct d bindings))
    (h : lowerExpr cx (.call note callee args) s = .ok v t) :
    d.siteDescriptor args = d.constructorDescriptor ∧
      ∃ code, v.code = [Code.new d.qualifiedName, Instr.op .dup] ++ code ++
        [Code.construct d.qualifiedName (d.siteDescriptor args)] := by
  cases exprRun_of_ok h with
  | callExternal hc _ _ _ => cases hcallee.symm.trans (BodyContext.callee_ok hc)
  | callUser hc _ _ _ _ _ _ => cases hcallee.symm.trans (BodyContext.callee_ok hc)
  | @construct _ _ _ _ _ _ _ code _ hc harity _ _ =>
    cases hcallee.symm.trans (BodyContext.callee_ok hc)
    have hsite := StructDef.siteDescriptor_eq harity
    refine ⟨hsite, code, ?_⟩
    rw [hsite]
  | absent hn => cases hn

/-- A struct whose fields have different names, are of types with values and proper class names, and
take slots that can be counted in sixteen bits behind the receiver, has a unit, which is emitted
where the struct is declared first. The unit has the fields in their order, a constructor with an
argument for each, and a textual form. All code that makes such an object calls this constructor:
the descriptor that is spelled from the arguments there is its own. In any world with the unit, the
constructor constructs and the textual form describes. -/
theorem unit_constructs_and_describes {d : StructDef} (hnames : (d.fields.map Prod.fst).Nodup)
    (hvalues : ∀ f ∈ d.fields, f.2.isVoid = false) (hnamed : ∀ f ∈ d.fields, f.2.isNamed)
    (hfit : 1 + Ty.slotsOf (d.fields.map Prod.snd) < 2 ^ 16) (file : FileContext) (s : LowerState) :
    ∃ u init text, d.unit file s = .ok u s ∧
      (∀ scope name span bindings, file.scopes.lookup scope name = some (.struct d bindings) →
        s.file.structs.any (·.name == d.qualifiedName) = false →
        ∃ t, lowerStruct file scope name span s = .ok () t ∧ t.file.structs =
          s.file.structs ++ [u]) ∧
      u.name = d.qualifiedName ∧ u.fields =
        d.fields.map (fun f => ⟨.publicFlag, f.1, f.2.descriptor⟩) ∧
      u.methods = [init, text] ∧
      init.name = Library.constructor ∧ text.name = "toString" ∧ text.descriptor =
        "()Ljava/lang/String;" ∧
      (∃ types, MethodDescriptor.parse init.descriptor = .ok ⟨types, none⟩ ∧
        d.fields.map (fun f => f.2.fieldType?) = types.map some) ∧
      init.maxLocals.toNat = 1 + Ty.slotsOf (d.fields.map Prod.snd) ∧
      (∀ (cx : BodyContext) note callee args bindings s v t, cx.callee? callee =
        some (.struct d bindings) →
        lowerExpr cx (.call note callee args) s = .ok v t →
        d.siteDescriptor args = init.descriptor ∧ ∃ code,
        v.code = [Code.new u.name, .op .dup] ++ code ++
          [Code.callSpecial ⟨u.name, init.name, d.siteDescriptor args⟩]) ∧
      ∀ w : World, u ∈ w.units → Constructs w d init ∧ Describes w d text := by
  have hwritten : ∀ t ∈ d.fields.map Prod.snd, t.isNamed := List.forall_mem_map.mpr hnamed
  obtain ⟨types, htypes⟩ := exists_fieldTypes (List.forall_mem_map.mpr hvalues)
  have hparse : MethodDescriptor.parse d.constructorDescriptor = .ok ⟨types, none⟩ := by
    rw [constructorDescriptor_eq]
    exact parse_methodDescriptor htypes hwritten rfl
  obtain ⟨init, hinit⟩ := exists_start .publicFlag Library.constructor hparse
  obtain ⟨text, htext⟩ := exists_start .publicFlag "toString" parse_textDescriptor
  obtain ⟨hinitName, hinitDescriptor⟩ := Frame.start_named hinit
  obtain ⟨htextName, htextDescriptor⟩ := Frame.start_named htext
  have hunit : d.unit file s = .ok _ s :=
    StructDef.unit_ok.mpr ⟨⟨init, text, hinit, htext, rfl⟩, rfl⟩
  refine ⟨_, init.finish (d.constructorCode init), text.finish d.toStringCode, hunit, ?_, rfl, rfl,
    rfl, hinitName, htextName, htextDescriptor,
    ⟨types, (congrArg _ hinitDescriptor).trans hparse, ?_⟩,
    maxLocals_constructor hinit hparse htypes hfit, ?_, fun w hw => ?_⟩
  · intro scope name span bindings hlookup hfirst
    exact lowerStruct_emits hlookup hfirst hunit
  · rw [← htypes, List.map_map]
    rfl
  · intro cx note callee args bindings s v t hcallee hrun
    obtain ⟨hsite, code, hcode⟩ := lowerExpr_construct hcallee hrun
    refine ⟨hsite.trans hinitDescriptor.symm, code, hcode.trans ?_⟩
    rw [Code.construct, show (init.finish (d.constructorCode init)).name = _ from hinitName]
  · have hdeclared : ∀ f ∈ d.fields, w.declares (fieldMember d f.1 f.2) = true := fun f hf =>
      declares_of_mem hw rfl (List.mem_map.mpr ⟨f, hf, rfl⟩) rfl rfl
    exact ⟨constructs hinit hnames hnamed hdeclared, describes hdeclared⟩

/-- A number, a value of two slots and a text. -/
def sampleStruct : StructDef :=
  ⟨"Entry", "sample$Entry", [("n", .int), ("x", .double), ("label", .string)]⟩

/-- Numbers are written as such, and everything else but texts as a mark. -/
def sampleWorld (u : ClassUnit) : World where
  units := [u]
  render _ _
    | .int n => some (toString n.toInt)
    | .text text => some text
    | _ => some "?"
  render_text _ _ := rfl

/-- Before the constructor runs on `7`, a double and `"ok"`. -/
def sampleEntry (objects : List Object) : State where
  stack := []
  locals n := [some (.object 0), some (.int 7), some (.double 0), none, some (.text "ok")].getD
    n.toNat none
  objects
  builders := []

theorem unit_constructs_and_describes_entry :
    ∃ u init text made τ, sampleStruct.unit ⟨"sample", "sample.ix", ⟨#[]⟩⟩ {} = .ok u {} ∧
      u.methods = [init, text] ∧
      Enters init (.object 0) [.int 7, .double 0, .text "ok"]
        (sampleEntry [⟨"sample$Entry", false, fun _ => none⟩]) ∧
      Returns (sampleWorld u) init.code (sampleEntry [⟨"sample$Entry", false, fun _ => none⟩]) none
        (sampleEntry [made]) ∧
      made.fields ⟨"sample$Entry", "x", "D"⟩ = some (.double 0) ∧
      Returns (sampleWorld u) text.code (sampleEntry [made])
        (some (.text "Entry[n=7, x=?, label=ok]")) τ ∧
      τ.objects = [made] := by
  let fresh : Object := ⟨"sample$Entry", false, fun _ => none⟩
  obtain ⟨u, init, text, hunit, -, -, -, hmethods, -, -, htext, ⟨types, hparse, htypes⟩, -,
      -, hworld⟩ :=
    unit_constructs_and_describes (d := sampleStruct)
      (by decide) (by decide) (by decide) (by decide)
      ⟨"sample", "sample.ix", ⟨#[]⟩⟩ {}
  obtain ⟨hconstructs, hdescribes⟩ := hworld (sampleWorld u) (List.mem_singleton_self u)
  obtain rfl : [.int, .double, .object Library.string] = types :=
    List.map_injective_iff.mpr (fun _ _ => Option.some.inj) htypes
  have henters : Enters init (.object 0) [.int 7, .double 0, .text "ok"] (sampleEntry [fresh]) := by
    refine ⟨rfl, rfl, _, hparse, rfl, fun i type v htype hv => ?_⟩
    rcases i with _ | _ | _ | i <;> cases htype <;> cases hv
    · exact ⟨rfl, 1, rfl, rfl⟩
    · exact ⟨rfl, 2, rfl, rfl⟩
    · exact ⟨rfl, 4, rfl, rfl⟩
  obtain ⟨made, hrun, hclass, hready, hfields, -⟩ := hconstructs _ 0 fresh _ henters rfl rfl rfl
  have hdescribed : Enters text (.object 0) [] (sampleEntry [made]) :=
    ⟨rfl, rfl, _, htext ▸ parse_textDescriptor, rfl, fun _ _ _ _ hv => by simp at hv⟩
  have hshows : ∀ (i : Nat) f v t, sampleStruct.fields[i]? = some f →
      [.int 7, .double 0, .text "ok"][i]? = some v →
      ["7", "?", "ok"][i]? = some t → Shows (sampleWorld u) sampleStruct [made] made f v t := by
    intro i f v t hf hv ht
    have hfield := hfields i f v hf hv
    rcases i with _ | _ | _ | i <;> cases hf <;> cases hv <;> cases ht
    · exact ⟨hfield, ⟨_, rfl, rfl⟩, rfl⟩
    · exact ⟨hfield, ⟨_, rfl, rfl⟩, rfl⟩
    · exact ⟨hfield, ⟨_, rfl, rfl⟩, rfl⟩
  obtain ⟨τ, hshown, hobjects⟩ :=
    hdescribes _ 0 made _ _ hdescribed rfl hclass hready rfl rfl hshows
  exact ⟨u, init, text, made, τ, hunit, hmethods, henters, hrun, hfields 1 _ _ rfl rfl,
    hshown, hobjects⟩

end ClassGen.Objects
