import ClassGen.Proofs.Lowering.Steps
import ClassGen.Proofs.Types.Placeholders

/-! The types along a chain of fields. Each field should get its declared type with the bindings of
the struct it is read from, whatever the placeholders of the function around it stand for. That is
so for a declared type without placeholders, and for one that shows a placeholder outside the
bindings of struct types. A type whose placeholders are all inside such bindings is taken as it was
declared, and the function around it then answers for them at the next field. -/

namespace ClassGen

open Run

/-! ### One field -/

/-- A field as it is read: of which struct type, under which name, and what it was declared to be.
-/
structure Hop where
  decl : StructDef
  bindings : Bindings
  field : String
  declared : Ty

namespace Hop

/-- The declared type with the bindings of the struct. -/
def type (h : Hop) : Ty := h.declared.substitute h.bindings

def load (h : Hop) : Code :=
  Code.getField (fieldMember h.decl h.field h.declared) :: coerce h.declared h.type

/-- The struct type binds the placeholders of the field, and to types without any. -/
structure Closed (h : Hop) : Prop where
  bound : ∀ key ∈ h.declared.placeholders, (h.bindings.lookup key).isSome
  ground : ∀ b ∈ h.bindings, b.2.placeholders = []

/-- Either the bindings are not asked for and would change nothing, or they leave no placeholder. -/
def Settled (h : Hop) : Prop :=
  h.bindings = [] ∨ if h.declared.containsGeneric then h.type.placeholders = []
    else h.type = h.declared

/-- The narrowed type is the right one in every function if and only if the field is settled. -/
theorem narrowed_iff (h : Hop) : (∀ map, narrowed h.bindings map h.declared = h.type) ↔
    h.Settled := by
  by_cases hempty : h.bindings = []
  · have hright : h.Settled := .inl hempty
    simp [hright, type, hempty, narrowed]
  cases hgeneric : h.declared.containsGeneric with
  | false =>
    have hdeclared (map : Bindings) : narrowed h.bindings map h.declared =
        h.declared := by simp [narrowed, hgeneric]
    simp [Settled, hempty, hgeneric, hdeclared, eq_comm]
  | true =>
    have hnarrowed (map : Bindings) : narrowed h.bindings map h.declared =
        if (h.type.substitute map).containsGeneric then h.declared else h.type.substitute map := by
      rw [narrowed, if_neg (by simp [hempty, hgeneric])]
      rfl
    simp only [Settled, hempty, hgeneric, if_true, false_or, hnarrowed]
    constructor
    · intro hall
      -- bindings that leave no placeholder would show in the answer
      obtain ⟨map, hmap⟩ := h.type.exists_closing
      have hsame := hall map
      rw [Ty.containsGeneric_eq_false _ hmap, if_neg Bool.false_ne_true] at hsame
      rwa [hsame] at hmap
    · intro hground map
      rw [Ty.substitute_of_placeholders_eq_nil hground, Ty.containsGeneric_eq_false _ hground,
        if_neg Bool.false_ne_true]

/-- In a struct type that binds what its field needs, only a type that hides its placeholders is not
settled. -/
theorem Closed.settled_iff {h : Hop} (hc : h.Closed) :
    h.Settled ↔ h.declared.containsGeneric = true ∨ h.declared.placeholders = [] := by
  have hself := Ty.substitute_eq_self_iff hc.bound hc.ground
  have hground : h.type.placeholders = [] := Ty.placeholders_substitute_eq_nil hc.bound hc.ground
  cases hgeneric : h.declared.containsGeneric with
  | true => simp [Settled, hgeneric, hground]
  | false =>
    simp only [Settled, hgeneric, type, hself, Bool.false_eq_true, if_false, false_or]
    refine ⟨fun hor => hor.elim (fun hempty => ?_) id, .inr⟩
    rw [← hself, hempty, Ty.substitute_nil]

end Hop

/-! ### Chains -/

/-- The fields of a chain as they should be read, each of the type that the one before has; none if
there is no such field. -/
def Ty.hops? : Ty → List String → Option (List Hop)
  | _, [] => some []
  | .struct decl bindings, field :: rest =>
    (decl.fieldType? field).bind fun declared =>
      let hop : Hop := ⟨decl, bindings, field, declared⟩
      (hop.type.hops? rest).map (hop :: ·)
  | _, _ :: _ => none

/-- The value after these fields were read, one of the other. -/
def Lowered.along (owner : Lowered) (hops : List Hop) : Lowered :=
  hops.foldl (fun v h => ⟨h.type, v.code ++ h.load⟩) owner

variable {cx : BodyContext} {owner : Lowered} {span : Span} {s : LowerState} {map : Bindings}

theorem loadField_hop {h : Hop} (htype : owner.type = .struct h.decl h.bindings)
    (hfield : h.decl.fieldType? h.field = some h.declared) :
    cx.loadField owner h.field span s = .ok ⟨narrowed h.bindings cx.bindings h.declared,
      owner.code ++ [Code.getField (fieldMember h.decl h.field h.declared)] ++
        coerce h.declared (narrowed h.bindings cx.bindings h.declared)⟩ s := by
  simp [BodyContext.loadField, htype, structField, hfield, bind, EStateM.bind, pure, EStateM.pure]

/-- A settled field is read as it should be. -/
theorem loadField_settled {h : Hop} (htype : owner.type = .struct h.decl h.bindings)
    (hfield : h.decl.fieldType? h.field = some h.declared) (hsettled : h.Settled) :
    cx.loadField owner h.field span s = .ok (owner.along [h]) s := by
  rw [loadField_hop htype hfield, h.narrowed_iff.mpr hsettled]
  simp [Lowered.along, Hop.load]

/-- A chain has a first field, with the rest of the chain behind it. -/
theorem Ty.hops?_cons {t : Ty} {field : String} {rest : List String} {hops : List Hop}
    (h : t.hops? (field :: rest) = some hops) :
    ∃ hop later, hops = hop :: later ∧ t = .struct hop.decl hop.bindings ∧ hop.field = field ∧
      hop.decl.fieldType? hop.field = some hop.declared ∧ hop.type.hops? rest = some later := by
  cases t with
  | struct decl bindings =>
    rw [Ty.hops?] at h
    obtain ⟨declared, hdeclared, h⟩ := Option.bind_eq_some_iff.mp h
    obtain ⟨later, hlater, rfl⟩ := Option.map_eq_some_iff.mp h
    exact ⟨⟨decl, bindings, field, declared⟩, later, rfl, rfl, rfl, hdeclared, hlater⟩
  | _ => simp [Ty.hops?] at h

variable {fields : List String} {hops : List Hop}

/-- Through settled fields a chain is followed as it should be, and so is each beginning of it. -/
theorem loadFields_settled (hhops : owner.type.hops? fields = some hops)
    (hsettled : ∀ h ∈ hops, h.Settled) (n : Nat) :
    cx.loadFields owner span (fields.take n) s = .ok (owner.along (hops.take n)) s := by
  induction fields generalizing owner hops n with
  | nil =>
    cases hhops
    simp [BodyContext.loadFields, Lowered.along, pure, EStateM.pure]
  | cons field rest ih =>
    obtain ⟨hop, later, rfl, htype, rfl, hfield, hlater⟩ := Ty.hops?_cons hhops
    obtain ⟨hfirst, hrest⟩ := List.forall_mem_cons.mp hsettled
    cases n with
    | zero => rfl
    | succ n =>
      rw [List.take_succ_cons, BodyContext.loadFields,
        bind_of_ok (loadField_settled htype hfield hfirst)]
      exact ih hlater hrest n

/-- Fields that are read as they should be in every function are settled. -/
theorem settled_of_loadFields (hhops : owner.type.hops? fields = some hops)
    (hall : ∀ map n, ({ cx with bindings := map } : BodyContext).loadFields owner span
      (fields.take n) s =
      .ok (owner.along (hops.take n)) s) : ∀ h ∈ hops, h.Settled := by
  induction fields generalizing owner hops with
  | nil =>
    cases hhops
    exact nofun
  | cons field rest ih =>
    obtain ⟨hop, later, rfl, htype, rfl, hfield, hlater⟩ := Ty.hops?_cons hhops
    have hfirst : hop.Settled := by
      refine hop.narrowed_iff.mp fun map => ?_
      have hone := hall map 1
      rw [List.take_succ_cons, List.take_zero, BodyContext.loadFields,
        bind_of_ok (loadField_hop htype hfield)] at hone
      exact congrArg Lowered.type (pure_ok.mp hone).1
    have hrest : (owner.along [hop]).type.hops? rest = some later := hlater
    refine List.forall_mem_cons.mpr ⟨hfirst, ih hrest fun map n => ?_⟩
    have hnext := hall map (n + 1)
    rwa [List.take_succ_cons, BodyContext.loadFields,
      bind_of_ok (loadField_settled htype hfield hfirst)] at hnext

/-- Narrowing along a chain of fields: the field at each point of the chain gets its declared type
with the bindings of the struct it is read from, in every function, if and only if all fields on the
way are settled. Where the struct types bind what their fields need, and to types without
placeholders, the fields that are not settled are those whose declared type has placeholders, but
all of them inside the bindings of struct types. -/
theorem loadFields_narrows_iff (cx : BodyContext) {owner : Lowered} (span : Span) (s : LowerState)
    {fields : List String} {hops : List Hop} (hhops : owner.type.hops? fields = some hops) :
    ((∀ map n, ({ cx with bindings := map } : BodyContext).loadFields owner span (fields.take n) s =
        .ok (owner.along (hops.take n)) s) ↔ ∀ h ∈ hops, h.Settled) ∧
      ∀ h ∈ hops, h.Closed → (h.Settled ↔ h.declared.containsGeneric = true ∨
        h.declared.placeholders = []) :=
  ⟨⟨settled_of_loadFields hhops, fun hsettled _ n => loadFields_settled hhops hsettled n⟩,
    fun _ _ hclosed => hclosed.settled_iff⟩

/-- `struct Pair { first: T, boxed: Box(T) }` -/
def samplePair : StructDef :=
  ⟨"Pair", "sample$Pair", [("first", .generic "T"),
    ("boxed", .struct sampleBox [("T", .generic "T")])]⟩

/-- The first of a pair of boxes of integers, and what is in it. -/
theorem loadFields_narrows_iff_first :
    (Ty.struct samplePair [("T", .struct sampleBox [("T", .int)])]).hops? ["first", "value"] =
      some [⟨samplePair, [("T", .struct sampleBox [("T", .int)])], "first", .generic "T"⟩,
        ⟨sampleBox, [("T", .int)], "value", .generic "T"⟩] ∧
      ∀ (cx : BodyContext) (span : Span) (s : LowerState) (map : Bindings),
        ({ cx with bindings := map } : BodyContext).loadFields
            ⟨.struct samplePair [("T", .struct sampleBox [("T", .int)])], []⟩ span
              ["first", "value"] s =
          .ok ⟨.int, [Code.getField ⟨"sample$Pair", "first", "Ljava/lang/Object;"⟩,
            Code.checkcast "sample$Box", Code.getField ⟨"sample$Box", "value",
              "Ljava/lang/Object;"⟩, Code.checkcast "java/lang/Integer",
            Code.callVirtual ⟨"java/lang/Integer", "intValue", "()I"⟩]⟩ s := by
  refine ⟨rfl, fun cx span s map => ?_⟩
  let owner : Lowered := ⟨.struct samplePair [("T", .struct sampleBox [("T", .int)])], []⟩
  have hhops : owner.type.hops? ["first", "value"] = some [_, _] := rfl
  refine (loadFields_narrows_iff cx span s hhops).1.mpr ?_ map 2
  rw [List.forall_mem_cons, List.forall_mem_singleton]
  exact ⟨.inr rfl, .inr rfl⟩

/-- What is in the box of a pair of integers, read in a function whose own placeholder of that name
is `string`: its declared type is not settled, and the value is taken for a string. -/
theorem loadFields_captures :
    (Ty.struct samplePair [("T", .int)]).hops? ["boxed", "value"] =
      some [⟨samplePair, [("T", .int)], "boxed", .struct sampleBox [("T", .generic "T")]⟩,
        ⟨sampleBox, [("T", .int)], "value", .generic "T"⟩] ∧
      (∀ h ∈ [Hop.mk samplePair [("T", .int)] "boxed" (.struct sampleBox [("T", .generic "T")]),
        ⟨sampleBox, [("T", .int)], "value", .generic "T"⟩], h.Closed) ∧
      ∀ (cx : BodyContext) (span : Span) (s : LowerState),
        ({ cx with bindings := [("T", .string)] } : BodyContext).loadFields
          ⟨.struct samplePair [("T", .int)], []⟩ span
            ["boxed", "value"] s =
          .ok ⟨.string, [Code.getField ⟨"sample$Pair", "boxed", "Lsample$Box;"⟩,
            Code.getField ⟨"sample$Box", "value", "Ljava/lang/Object;"⟩,
            Code.checkcast "java/lang/String"]⟩ s := by
  refine ⟨rfl, ?_, fun cx span s => rfl⟩
  rw [List.forall_mem_cons, List.forall_mem_singleton]
  exact ⟨⟨by decide, by decide⟩, ⟨by decide, by decide⟩⟩

end ClassGen
