import Mathlib.Algebra.GroupWithZero.Nat
import ClassGen.Proofs.Fields.Machine
import ClassGen.Proofs.Types.Narrowing

/-! Chains of fields, lowered and executed. A chain that is read gives what the last field holds. An
assignment to a chain walks to the object of the last field, evaluates the value, converts it to the
declared type of the field and stores it there. -/

namespace ClassGen

open Run

/-- The field as the instructions name it. -/
def Hop.member (h : Hop) : Member := fieldMember h.decl h.field h.declared

namespace Fields

open Iteration (State Through Straight)

/-! ### Chains through struct types -/

/-- A chain of fields through struct types without bindings: the fields on the way, and the last
one. -/
inductive Chain : StructDef → List String → List Hop → Hop → Prop
  | last {d : StructDef} {field : String} {declared : Ty} (h : d.fieldType? field = some declared) :
    Chain d [field] [] ⟨d, [], field, declared⟩
  | cons {d next : StructDef} {field : String} {fields : List String} {path : List Hop} {last : Hop}
    (h : d.fieldType? field = some (.struct next [])) (rest : Chain next fields path last) :
    Chain d (field :: fields) (⟨d, [], field, .struct next []⟩ :: path) last

/-- The value can be stored in a field: it is of the type of the field, of a narrower numeric type,
or a scalar where the field has references. -/
inductive Fits : Ty → Ty → Prop
  | same (t : Ty) : Fits t t
  | narrower {p q : Primitive} {m n : Nat} (hp : p.rank? = some m) (hq : q.rank? = some n)
    (h : m < n) : Fits (.primitive p) (.primitive q)
  | boxed {source target : Ty} {p : Primitive} (hs : source.representation = .scalar p)
    (ht : target.representation = .reference) : Fits source target

def reads (hops : List Hop) : Code := hops.map fun h => Code.getField h.member

/-- The type that a chain is read at: the declared one, but for a chain of one field whose receiver
is annotated with bindings of its struct. -/
def readType (map : Bindings) (annotated : Ty) (d : StructDef) (path : List Hop)
    (last : Hop) : Ty :=
  match annotated with
  | .struct wanted bindings =>
    if d = wanted ∧ path.isEmpty then narrowed bindings map last.declared else last.declared
  | _ => last.declared

/-- The receiver, then the fields one after another. -/
def readCode (r : Lowered) (path : List Hop) (last : Hop) : Code := r.code ++ reads (path ++ [last])

/-- The receiver, the fields on the way, the value as one of the last field, and the store. -/
def writeCode (r v : Lowered) (path : List Hop) (last : Hop) : Code :=
  r.code ++ reads path ++ (v.code ++ coerce v.type last.declared) ++ [Code.putField last.member]

variable {d : StructDef} {fields : List String} {path : List Hop} {last : Hop}

namespace Chain

theorem declared (h : Chain d fields path last) :
    ∀ hop ∈ path ++ [last], hop.decl.fieldType? hop.field = some hop.declared := by
  induction h with
  | last h => exact List.forall_mem_singleton.mpr h
  | cons h _ ih => exact List.forall_mem_cons.mpr ⟨h, ih⟩

theorem getLast? (h : Chain d fields path last) : fields.getLast? = some last.field := by
  induction h with
  | last _ => rfl
  | cons _ _ ih => rw [List.getLast?_cons, ih, Option.getD_some]

end Chain

/-! ### Lowering -/

section Lowering

variable {cx : BodyContext} {span : Span} {s : LowerState} {bindings : Bindings}

/-- A field with a type that bindings do not change. -/
theorem loadField_plain {field : String} {declared : Ty} (c : Code)
    (hfield : d.fieldType? field = some declared)
    (hplain : bindings = [] ∨ declared.containsGeneric = false) :
    cx.loadField ⟨.struct d bindings, c⟩ field span s =
      .ok ⟨declared, c ++ [Code.getField (fieldMember d field declared)]⟩ s := by
  have hnarrowed : narrowed bindings cx.bindings declared = declared := by
    rcases hplain with rfl | hgeneric
    · rfl
    · simp [narrowed, hgeneric]
  rw [loadField_hop (h := ⟨d, bindings, field, declared⟩) rfl hfield, hnarrowed, coerce_self,
    List.append_nil]

theorem loadFields_chain (h : Chain d fields path last) (bindings : Bindings) (c : Code) :
    cx.loadFields ⟨.struct d bindings, c⟩ span fields s =
      .ok ⟨readType cx.bindings (.struct d bindings) d path last, c ++ reads (path ++ [last]) ++
        coerce last.declared (readType cx.bindings (.struct d bindings) d path last)⟩ s := by
  induction h generalizing bindings c with
  | @last d field declared h =>
    rw [BodyContext.loadFields, bind_of_ok
      (loadField_hop (h := ⟨d, bindings, field, declared⟩) rfl h)]
    have htype : readType cx.bindings (.struct d bindings) d [] ⟨d, [], field, declared⟩ =
        narrowed bindings cx.bindings declared := if_pos ⟨rfl, rfl⟩
    rw [htype]
    rfl
  | @cons d next field fields path last h rest ih =>
    rw [BodyContext.loadFields, bind_of_ok (loadField_plain c h (.inr rfl)), ih []]
    -- behind the first field the receiver has no bindings
    have hrest : readType cx.bindings (.struct next []) next path last = last.declared := by
      rw [readType]
      split_ifs <;> rfl
    have hwhole : readType cx.bindings (.struct d bindings) d
        (⟨d, [], field, .struct next []⟩ :: path) last =
        last.declared := if_neg fun hempty => Bool.false_ne_true hempty.2
    rw [hrest, hwhole, List.append_assoc c]
    rfl

/-- All fields but the last lead to a struct that declares the last. -/
theorem loadFields_dropLast (cx : BodyContext) (span : Span) (s : LowerState)
    (h : Chain d fields path last) (bindings : Bindings) (c : Code) :
    ∃ bindings', cx.loadFields ⟨.struct d bindings, c⟩ span fields.dropLast s =
      .ok ⟨.struct last.decl bindings', c ++ reads path⟩ s := by
  induction h generalizing bindings c with
  | last _ => exact ⟨bindings, by rw [reads, List.map_nil, List.append_nil]; rfl⟩
  | @cons d next field fields path last h rest ih =>
    have hne : fields ≠ [] := by
      rintro rfl
      cases rest
    obtain ⟨bindings', hrest⟩ := ih []
      (c ++ [Code.getField (fieldMember d field (.struct next []))])
    refine ⟨bindings', ?_⟩
    rw [List.dropLast_cons_of_ne_nil hne, BodyContext.loadFields,
      bind_of_ok (loadField_plain c h (.inr rfl)), hrest, List.append_assoc]
    rfl

/-- A receiver that is a struct stays one; all that the annotation can add is bindings. -/
theorem receiver_struct {r : Lowered} {note : Note} {annotated : Ty} (htype : r.type = .struct d [])
    (hannotated : Specialization.resolve cx.bindings note.type = .ok annotated) :
    ∃ bindings, cx.receiver r note s = .ok ⟨.struct d bindings, r.code⟩ s ∧
      ∀ path last, readType cx.bindings (.struct d bindings) d path last =
        readType cx.bindings annotated d path last := by
  obtain ⟨type, c⟩ := r
  obtain rfl : type = .struct d [] := htype
  rw [BodyContext.receiver, bind_of_ok (BodyContext.resolve_ok.mpr ⟨hannotated, rfl⟩)]
  have hplain (path : List Hop) (last : Hop) : readType cx.bindings (.struct d []) d path last =
      last.declared := by
    rw [readType]
    split_ifs <;> rfl
  cases annotated with
  | struct wanted bindings =>
    by_cases hsame : d = wanted
    · subst hsame
      exact ⟨bindings, pure_ok.mpr ⟨if_pos ⟨rfl, rfl⟩, rfl⟩, fun _ _ => rfl⟩
    · refine ⟨[], pure_ok.mpr ⟨if_neg fun h => hsame h.1, rfl⟩, fun path last => ?_⟩
      rw [hplain]
      exact (if_neg fun h => hsame h.1).symm
  | _ => exact ⟨[], rfl, hplain⟩

theorem Fits.void {source target : Ty} (h : Fits source target) (hv : source.isVoid) :
    target.isVoid := by
  cases h with
  | same _ => exact hv
  | @narrower p _ _ _ hp _ _ =>
    cases p with
    | void => cases hp
    | _ => cases hv
  | boxed hs _ =>
    rw [Ty.representation_void.mpr hv] at hs
    cases hs

/-- Between numeric types of different rank there is one instruction. -/
theorem coerce_narrower {p q : Primitive} {k l : Nat} (hp : p.rank? = some k)
    (hq : q.rank? = some l) (hlt : k < l) :
    ∃ op, p.widenOp? q = some op ∧ coerce (.primitive p) (.primitive q) = [.op op] := by
  cases p <;> cases hp <;> cases q <;> cases hq <;>
    first | exact absurd hlt (by decide) | exact ⟨_, rfl, rfl⟩

theorem representation_numeric {p : Primitive} {k : Nat} (hp : p.rank? = some k) :
    (Ty.primitive p).representation = .scalar p := by
  cases p <;> first | rfl | cases hp

/-- A scalar is boxed by one instruction. -/
theorem coerce_boxed {source target : Ty} {p : Primitive} (hs : source.representation = .scalar p)
    (ht : target.representation = .reference) :
    ∃ i, Code.box p = [i] ∧ coerce source target = [i] := by
  have hcode : coerce source target = Code.box p := by simp [coerce, hs, ht]
  rw [hcode]
  have hscalar := Iteration.isScalar_of_representation hs
  cases p with
  | int | float | double | boolean => exact ⟨_, rfl, rfl⟩
  | string | void => cases hscalar

variable {receiver value : Expr} {r v : Lowered} {annotated : Ty} {s₁ t : LowerState}

theorem lowerExpr_read (hr : lowerExpr cx receiver s = .ok r s₁) (htype : r.type = .struct d [])
    (hannotated : Specialization.resolve cx.bindings receiver.note.type = .ok annotated)
    (hchain : Chain d fields path last) (note : Note) :
    lowerExpr cx (.property note receiver fields) s =
      .ok ⟨readType cx.bindings annotated d path last, readCode r path last ++
        coerce last.declared (readType cx.bindings annotated d path last)⟩ s₁ := by
  obtain ⟨bindings, hreceiver, hsame⟩ := receiver_struct (s := s₁) htype hannotated
  rw [lowerExpr, bind_of_ok hr, bind_of_ok hreceiver, ← hsame]
  exact loadFields_chain hchain bindings r.code

/-- Another type than the declared one comes from bindings, and only where the declared one has a
placeholder. -/
theorem readType_ne {map : Bindings} (h : readType map annotated d path last ≠ last.declared) :
    path = [] ∧ last.declared.containsGeneric = true ∧
      ∃ bindings, bindings ≠ [] ∧ annotated = .struct d bindings := by
  unfold readType at h
  split at h
  · next wanted bindings =>
    split_ifs at h with hsame
    · obtain ⟨rfl, hpath⟩ := hsame
      refine ⟨List.isEmpty_iff.mp hpath, ?_, bindings, ?_, rfl⟩
      · by_contra hgeneric
        exact h (by simp [narrowed, hgeneric])
      · rintro rfl
        exact h rfl
    · exact absurd rfl h
  · exact absurd rfl h

theorem representation_of_containsGeneric {t : Ty} (h : t.containsGeneric = true) :
    t.representation = .reference := by
  cases t with
  | generic | union | list => rfl
  | _ => cases h

theorem lowerExpr_write (hr : lowerExpr cx receiver s = .ok r s₁) (htype : r.type = .struct d [])
    (hannotated : Specialization.resolve cx.bindings receiver.note.type = .ok annotated)
    (hchain : Chain d fields path last) (hv : lowerExpr cx value s₁ = .ok v t)
    (hfits : Fits v.type last.declared) (note target : Note) :
    lowerExpr cx (.assign note (.property target receiver fields) value) s =
      .ok ⟨.void, writeCode r v path last⟩ t := by
  obtain ⟨bindings, hreceiver, -⟩ := receiver_struct (s := s₁) htype hannotated
  obtain ⟨bindings', howner⟩ := loadFields_dropLast cx target.span s₁ hchain bindings r.code
  have hfield : structField (.struct last.decl bindings') last.field target.span s₁ =
      .ok (last.decl, last.declared) s₁ := by
    rw [structField, hchain.declared last (by simp)]
    rfl
  have hinto : v.into last.declared value.span t = .ok (v.code ++ coerce v.type last.declared) t :=
    Lowered.into_ok.mpr ⟨hfits.void, rfl, rfl⟩
  rw [lowerExpr, hchain.getLast?]
  dsimp only
  rw [bind_of_ok hr, bind_of_ok hreceiver, bind_of_ok howner, bind_of_ok hfield]
  dsimp only
  rw [bind_of_ok hv, bind_of_ok hinto]
  rfl

end Lowering

/-! ### Execution -/

section Execution

variable {V U : Type} [DecidableEq V]

/-- From any evaluation of the receiver on, the code that stands at `n` goes straight through the
instructions for the fields and leaves what the last one holds. Where the chain is read at another
type than the declared one, the code goes on and leaves that value converted: cast to the class of
that type, or unboxed. -/
def ReadsField (R : Runtime V U) (P : Code) (n : Nat) (r : Lowered) (path : List Hop) (last : Hop)
    (type : Ty) : Prop :=
  ∀ σ first a ρ x, Evaluates R P n r σ first a ρ → ρ.world.1.Typed R.kind →
    ρ.world.1.walk a ((path ++ [last]).map Hop.member) = some x →
      ∃ rest, rest.map State.pc = List.range' (n + r.code.length) (path.length + 1) ∧
        Evaluates R P n ⟨last.declared, readCode r path last⟩ σ (first ++ rest) x
          ⟨n + (readCode r path last).length, x :: σ.stack, ρ.locals, ρ.world⟩ ∧
        (type ≠ last.declared → ∀ y, R.convert type x = some y →
          ∃ more, Evaluates R P n ⟨type, readCode r path last ++ coerce last.declared type⟩ σ
            (first ++ rest ++ more) y
            ⟨n + (readCode r path last ++ coerce last.declared type).length, y :: σ.stack,
              ρ.locals, ρ.world⟩)

/-- From any evaluation of the receiver on, the code that stands at `n` goes straight to the object
`o` of the last field. From any evaluation of the value there, it goes straight on to its end. Then
the stack is as it was at the beginning, and of the fields as the value left them one is changed:
the last field of `o` holds what is stored for the value. -/
def WritesField (R : Runtime V U) (P : Code) (n : Nat) (r v : Lowered) (path : List Hop)
    (last : Hop) : Prop :=
  ∀ σ first a ρ, Evaluates R P n r σ first a ρ → ρ.world.1.Typed R.kind →
    (ρ.world.1.walk a ((path ++ [last]).map Hop.member)).isSome →
      ∃ o way, ρ.world.1.walk a (path.map Hop.member) = some o ∧
        way.map State.pc = List.range' (n + r.code.length) path.length ∧
        ∀ second x τ, Evaluates R P (n + r.code.length + path.length) v
            ⟨n + r.code.length + path.length, o :: σ.stack, ρ.locals, ρ.world⟩ second x τ →
          ∃ y u rest, R.Stores v.type last.declared x y ∧
            rest.map State.pc = List.range' (n + r.code.length + path.length + v.code.length)
              ((coerce v.type last.declared).length + 1) ∧
            Through R.toRuntime P n (writeCode r v path last) σ (first ++ way ++ second ++ rest)
              ⟨n + (writeCode r v path last).length, σ.stack, τ.locals,
                (τ.world.1.set o last.member y, u)⟩

variable {R : Runtime V U} {P : Code} {n : Nat} {h : Heap V} {a o x : V}

theorem length_reads (hops : List Hop) : (reads hops).length = hops.length := List.length_map _

theorem straight_reads {hops : List Hop} (hh : h.Typed R.kind)
    (hwalk : h.walk a (hops.map Hop.member) = some o) (hat : P.At n (reads hops)) (st : List V)
    (locals : Nat → Option V) (u : U) :
    ∃ trace, Straight R.toRuntime P n (reads hops) ⟨n, a :: st, locals, (h, u)⟩ trace
      ⟨n + hops.length, o :: st, locals, (h, u)⟩ := by
  induction hops generalizing a n with
  | nil =>
    cases hwalk
    exact ⟨[], .nil rfl⟩
  | cons hop hops ih =>
    obtain ⟨b, hb, hrest⟩ := Option.bind_eq_some_iff.mp hwalk
    obtain ⟨ha, -, f, hf, hk⟩ := hh.kinds hb rfl
    obtain ⟨trace, hstraight⟩ := ih hrest hat.tail
    have hend : n + (hop :: hops).length = n + 1 + hops.length := by
      rw [List.length_cons]
      omega
    rw [hend]
    exact ⟨_, .cons (step_getField hat.head hf hk ha hb) rfl rfl hstraight⟩

theorem kind_of_scalar {t : Ty} {p : Primitive} (ht : t.representation = .scalar p)
    (hx : t.kinds = [R.kind x]) : R.kind x = p.kind := by
  rw [Ty.kinds, ht] at hx
  exact (List.cons.inj hx).1.symm

/-- The conversion of a value that fits to the type of a field. -/
theorem straight_coerce {source target : Ty} (hfits : Fits source target)
    (hx : source.kinds = [R.kind x]) (hat : P.At n (coerce source target)) (st : List V)
    (locals : Nat → Option V) (h : Heap V) (u : U) :
    ∃ y u' trace, R.Stores source target x y ∧ target.kinds = [R.kind y] ∧
      Straight R.toRuntime P n (coerce source target) ⟨n, x :: st, locals, (h, u)⟩ trace
        ⟨n + (coerce source target).length, y :: st, locals, (h, u')⟩ := by
  cases hfits with
  | same _ =>
    rw [coerce_self]
    refine ⟨x, u, [], ?_, hx, .nil rfl⟩
    unfold Runtime.Stores
    cases source.representation with
    | scalar p => exact (if_pos rfl).symm
    | _ => rfl
  | @narrower p q k l hp hq hlt =>
    obtain ⟨op, hop, hcode⟩ := coerce_narrower hp hq hlt
    have hsource := representation_numeric hp
    have htarget := representation_numeric hq
    have hne : p ≠ q := by
      rintro rfl
      exact absurd (Option.some.inj (hp.symm.trans hq)) (Nat.ne_of_lt hlt)
    have hkind := kind_of_scalar hsource hx
    rw [hcode] at hat ⊢
    refine ⟨R.widen p q x, u, _, ?_, ?_, .single (step_widen hat.head hop hkind) rfl rfl⟩
    · simp only [Runtime.Stores, hsource, htarget, if_neg hne]
    · rw [Ty.kinds, htarget, (R.widened p q op x (h, u) hop hkind).2]
      rfl
  | @boxed _ _ p hs ht =>
    obtain ⟨i, hi, hcode⟩ := coerce_boxed hs ht
    rw [hcode] at hat ⊢
    obtain ⟨y, u', hstep, hy⟩ := step_box hat.head hi (kind_of_scalar hs hx)
    refine ⟨y, u', _, ?_, ?_, .single hstep rfl rfl⟩
    · simp only [Runtime.Stores, hs, ht]
      exact hy
    · rw [Ty.kinds, ht, hy.1]
      rfl

theorem readsField {r : Lowered} {type : Ty}
    (hat : P.At n (readCode r path last ++ coerce last.declared type))
    (hgeneric : type ≠ last.declared → last.declared.containsGeneric = true) :
    ReadsField R P n r path last type := by
  rintro σ first a ⟨pc, stack, locals, h, u⟩ x ⟨hfirst, hstack, -⟩ hh hwalk
  obtain rfl : pc = n + r.code.length := hfirst.ends
  obtain rfl : stack = a :: σ.stack := hstack
  dsimp only at hh hwalk ⊢
  obtain ⟨rest, hrest⟩ := straight_reads hh hwalk hat.left.right σ.stack locals u
  have hx : last.declared.kinds = [R.kind x] := by
    rw [List.map_append, Heap.walk_append] at hwalk
    obtain ⟨o, -, ho⟩ := Option.bind_eq_some_iff.mp hwalk
    rw [List.map_singleton, Heap.walk_singleton] at ho
    exact (hh.kinds ho rfl).2.1
  have hall := hfirst.append hrest.through
  have hend : n + r.code.length + (path ++ [last]).length = n + (readCode r path last).length :=
    hall.ends
  rw [hend] at hall
  refine ⟨rest, ?_, ⟨hall, rfl, hx⟩, fun hne y hy => ?_⟩
  · rw [hrest.positions, length_reads, List.length_append, List.length_singleton]
  · have hreference := representation_of_containsGeneric (hgeneric hne)
    have hkind : R.kind x = .ref := by
      rw [Ty.kinds, hreference] at hx
      exact (List.cons.inj hx).1.symm
    obtain ⟨hy, more, hmore⟩ := Iteration.through_coerce hreference hkind hy hat.right σ.stack
      locals (h, u)
    have hwhole := hall.append hmore
    rw [Nat.add_assoc, ← List.length_append] at hwhole
    exact ⟨more, hwhole, rfl, hy⟩

theorem writesField {r v : Lowered} (hfits : Fits v.type last.declared)
    (hat : P.At n (writeCode r v path last)) : WritesField R P n r v path last := by
  rintro σ first a ⟨pc, stack, locals, h, u⟩ ⟨hfirst, hstack, -⟩ hh hdefined
  obtain rfl : pc = n + r.code.length := hfirst.ends
  obtain rfl : stack = a :: σ.stack := hstack
  dsimp only at hh hdefined ⊢
  -- the pieces of the code
  have hcode : writeCode r v path last = r.code ++ (reads path ++ (v.code ++
      (coerce v.type last.declared ++ [Code.putField last.member]))) := by
    simp only [writeCode, List.append_assoc]
  rw [hcode] at hat ⊢
  have hvalue := hat.right.right
  rw [length_reads] at hvalue
  -- the object of the last field
  obtain ⟨z, hz⟩ := Option.isSome_iff_exists.mp hdefined
  rw [List.map_append, Heap.walk_append] at hz
  obtain ⟨o, ho, hz⟩ := Option.bind_eq_some_iff.mp hz
  rw [List.map_singleton, Heap.walk_singleton] at hz
  obtain ⟨hobject, hdeclared, f, hf, hk⟩ := hh.kinds hz (t := last.declared) rfl
  obtain ⟨way, hway⟩ := straight_reads hh ho hat.right.left σ.stack locals u
  refine ⟨o, way, ho, by rw [hway.positions, length_reads], ?_⟩
  rintro second x ⟨pc, stack, locals', h', u'⟩ ⟨hsecond, hstack, hx⟩
  obtain rfl : pc = n + r.code.length + path.length + v.code.length := hsecond.ends
  obtain rfl : stack = x :: o :: σ.stack := hstack
  obtain ⟨y, u'', convert, hy, hkinds, hconvert⟩ :=
    straight_coerce hfits hx hvalue.right.left (o :: σ.stack) locals' h' u'
  have hkind : f.kind? = some (R.kind y) := by
    rw [hk, (List.cons.inj (hdeclared.symm.trans hkinds)).1]
  -- the evaluation of the value has left the field in place
  have hkept : (h' o last.member).isSome :=
    run_keeps hsecond.run (Option.isSome_iff_exists.mpr ⟨z, hz⟩)
  have hput := hvalue.right.right.head
  have hrest := hconvert.append (.single (i := Code.putField last.member)
    (step_putField hput hf hkind hobject hkept) rfl rfl)
  have hall := hfirst.trans (hway.through.trans (hsecond.trans hrest.through))
  refine ⟨y, u'', _, hy, by rw [hrest.positions, List.length_append, List.length_singleton], ?_⟩
  rw [← hall.ends]
  simpa only [List.append_assoc] using hall

end Execution

/-- Chains of fields. Let the receiver be lowered to a value of a struct type without bindings, from
which the chain goes through such types. Every field is named with the struct that declares it and
with its declared type. The chain is lowered to the receiver and the reading of its fields, and that
code leaves what the last field holds. A conversion follows it only if the chain is one field with a
placeholder in its type and the receiver is annotated with bindings. An assignment of a value that
fits is lowered to the receiver, the reading of the fields on the way, the value with its conversion
and the store, and that code changes the last field alone. -/
theorem lowerExpr_field_chain {cx : BodyContext} {receiver : Expr} {s s₁ : LowerState} {r : Lowered}
    {annotated : Ty} {d : StructDef} {fields : List String} {path : List Hop} {last : Hop}
    (hr : lowerExpr cx receiver s = .ok r s₁) (htype : r.type = .struct d [])
    (hannotated : Specialization.resolve cx.bindings receiver.note.type = .ok annotated)
    (hchain : Chain d fields path last) :
    (∀ hop ∈ path ++ [last], hop.decl.fieldType? hop.field = some hop.declared ∧
        hop.member = ⟨hop.decl.qualifiedName, hop.field, hop.declared.descriptor⟩) ∧
      (∃ type, type = readType cx.bindings annotated d path last ∧
        (type ≠ last.declared → path = [] ∧ last.declared.containsGeneric = true ∧
          ∃ bindings, bindings ≠ [] ∧ annotated = .struct d bindings) ∧
        (type = last.declared → coerce last.declared type = []) ∧
        ∀ note, lowerExpr cx (.property note receiver fields) s =
            .ok ⟨type, readCode r path last ++ coerce last.declared type⟩ s₁ ∧
          ∀ (V U : Type) [DecidableEq V] (R : Runtime V U) (P : Code) (n : Nat),
            P.At n (readCode r path last ++ coerce last.declared type) →
              ReadsField R P n r path last type) ∧
      ∀ note target value v t, lowerExpr cx value s₁ = .ok v t → Fits v.type last.declared →
        lowerExpr cx (.assign note (.property target receiver fields) value) s =
            .ok ⟨.void, writeCode r v path last⟩ t ∧
          ∀ (V U : Type) [DecidableEq V] (R : Runtime V U) (P : Code) (n : Nat),
            P.At n (writeCode r v path last) → WritesField R P n r v path last := by
  refine ⟨fun hop hhop => ⟨hchain.declared hop hhop, rfl⟩,
    ⟨_, rfl, readType_ne, ?_, fun note => ?_⟩, ?_⟩
  · intro hsame
    rw [hsame, coerce_self]
  · exact ⟨lowerExpr_read hr htype hannotated hchain note,
      fun _ _ _ _ _ _ hat => readsField hat fun hne => (readType_ne hne).2.1⟩
  · intro note target value v t hv hfits
    exact ⟨lowerExpr_write hr htype hannotated hchain hv hfits note target,
      fun _ _ _ _ _ _ hat => writesField hfits hat⟩

/-! ### A sample -/

/-- Numbers by their kinds. A reference is the address of an object, or a box of its number. -/
def numbered : Runtime (Kind × Nat) Unit where
  kind := Prod.fst
  passes _ _ := true
  unbox p v := if p.isScalar then some (p.kind, v.2) else none
  truth b := (.int, if b then 1 else 0)
  takes op operands := op = .ifeq ∧ operands = [(.int, 0)]
  remaining _ _ := none
  widen _ q v := (q.kind, v.2)
  effect i operands w :=
    match i, operands with
    | .push _, [] => some ([(.int, 3)], w)
    | .type .checkcast _, [v] => some ([v], w)
    | .op op, [v] => ((Instr.opShape? op).bind (·.left.head?)).map fun k => ([(k, v.2)], w)
    | .field .getfield m, [o] => (w.1 o m).map fun x => ([x], w)
    | .field .putfield m, [x, o] => if (w.1 o m).isSome then some ([], (w.1.set o m x, w.2))
        else none
    | .invoke .invokestatic _, [v] => some ([(.ref, v.2)], w)
    | .invoke .invokevirtual target, [v] =>
      let ret := (MethodDescriptor.parse target.descriptor).toOption.bind (·.ret)
      (ret.bind FieldType.kind?).map fun k => ([(k, v.2)], w)
    | _, _ => none
  kind_truth _ := rfl
  takes_truth b := by cases b <;> rfl
  kind_remaining _ _ _ h := by cases h
  kind_unbox p v y h := by
    split_ifs at h
    cases h
    rfl
  checkcast _ _ _ := rfl
  unboxed p boxed method v w hboxed hmethod := by
    cases p <;> cases hboxed <;> cases hmethod <;> rfl
  hasNext _ _ _ h := by cases h
  next _ _ _ _ h := by cases h
  getField _ _ _ _ := rfl
  putField _ _ _ _ _ := rfl
  widened p q op x w hop hx := by
    cases p <;> cases q <;> cases hop <;> exact ⟨rfl, rfl⟩
  boxed p i x h u hi hx := by
    refine ⟨(.ref, x.2), u, ?_, rfl, ?_, ?_⟩
    · cases p <;> cases hi <;> rfl
    · cases p.boxedClass? <;> rfl
    · rw [← hx]
      cases p <;> first | rfl | cases hi
  keeps i operands w results w' h o m hm := by
    split at h
    · cases h
      exact hm
    · cases h
      exact hm
    · obtain ⟨k, -, hk⟩ := Option.map_eq_some_iff.mp h
      cases hk
      exact hm
    · obtain ⟨x, -, hx⟩ := Option.map_eq_some_iff.mp h
      cases hx
      exact hm
    · split_ifs at h
      cases h
      exact Heap.isSome_set hm
    · cases h
      exact hm
    · obtain ⟨k, -, hk⟩ := Option.map_eq_some_iff.mp h
      cases hk
      exact hm
    · cases h

/-- `struct Inner { any: object }` -/
def sampleInner : StructDef := ⟨"Inner", "m$Inner", [("any", .object)]⟩

/-- `struct Outer { inner: Inner }` -/
def sampleOuter : StructDef := ⟨"Outer", "m$Outer", [("inner", .struct sampleInner [])]⟩

/-- The first object is an `Outer`, and the second its `Inner`. -/
def sampleHeap : Heap (Kind × Nat) := fun o m =>
  if o = (.ref, 1) ∧ m = ⟨"m$Outer", "inner", "Lm$Inner;"⟩ then some (.ref, 2)
  else if o = (.ref, 2) ∧ m = ⟨"m$Inner", "any", "Ljava/lang/Object;"⟩ then some (.ref, 7)
  else none

theorem typed_sampleHeap : sampleHeap.Typed numbered.kind := by
  intro o m x h
  unfold sampleHeap at h
  split_ifs at h with houter hinner
  · obtain ⟨rfl, rfl⟩ := houter
    cases h
    exact ⟨rfl, _, rfl, fun k hk => Option.some.inj hk⟩
  · obtain ⟨rfl, rfl⟩ := hinner
    cases h
    exact ⟨rfl, _, rfl, fun k hk => Option.some.inj hk⟩

/-- An `Outer` is in the first slot. -/
def outerVars : List (String × Ty) := [("p", .struct sampleOuter [])]

/-- `p.inner.any` -/
def sampleChain : Expr :=
  .property ⟨.object, {}⟩ (.ident ⟨.struct sampleOuter [], {}⟩ "p") ["inner", "any"]

/-- The chain is read, and in `p.inner.any = 3` a box of the number is stored. -/
theorem lowerExpr_field_chain_boxed :
    ∃ read write, lowerExpr (sampleContext outerVars []) sampleChain (sampleState outerVars) =
        .ok ⟨.object, read⟩ (sampleState outerVars) ∧
      read = [.slot .aload 0, Code.getField ⟨"m$Outer", "inner", "Lm$Inner;"⟩,
        Code.getField ⟨"m$Inner", "any", "Ljava/lang/Object;"⟩] ∧
      lowerExpr (sampleContext outerVars [])
        (.assign ⟨.void, {}⟩ sampleChain (.literal ⟨.int, {}⟩ (.int 3)))
        (sampleState outerVars) = .ok ⟨.void, write⟩ (sampleState outerVars) ∧
      write = [.slot .aload 0, Code.getField ⟨"m$Outer", "inner", "Lm$Inner;"⟩, .push (.int 3),
        Code.callStatic ⟨"java/lang/Integer", "valueOf", "(I)Ljava/lang/Integer;"⟩,
        Code.putField ⟨"m$Inner", "any", "Ljava/lang/Object;"⟩] ∧
      ∀ locals : Nat → Option (Kind × Nat), locals 0 = some (.ref, 1) →
        (∃ trace, Through numbered.toRuntime read 0 read ⟨0, [], locals, (sampleHeap, ())⟩ trace
          ⟨3, [(.ref, 7)], locals, (sampleHeap, ())⟩) ∧
        ∃ trace y, Through numbered.toRuntime write 0 write ⟨0, [], locals, (sampleHeap, ())⟩ trace
            ⟨5, [], locals,
              (sampleHeap.set (.ref, 2) ⟨"m$Inner", "any", "Ljava/lang/Object;"⟩ y, ())⟩ ∧
          numbered.IsBox .int (.int, 3) y := by
  let r : Lowered := ⟨.struct sampleOuter [], [.slot .aload 0]⟩
  let v : Lowered := ⟨.int, [.push (.int 3)]⟩
  have hr : lowerExpr (sampleContext outerVars []) (.ident ⟨.struct sampleOuter [], {}⟩ "p")
      (sampleState outerVars) = .ok r (sampleState outerVars) := rfl
  have hv : lowerExpr (sampleContext outerVars []) (.literal ⟨.int, {}⟩ (.int 3))
      (sampleState outerVars) = .ok v (sampleState outerVars) := rfl
  have hchain : Chain sampleOuter ["inner", "any"]
      [⟨sampleOuter, [], "inner", .struct sampleInner []⟩] ⟨sampleInner, [], "any", .object⟩ :=
    .cons rfl (.last rfl)
  obtain ⟨-, ⟨type, -, hother, -, hread⟩, hwrite⟩ := lowerExpr_field_chain hr rfl rfl hchain
  obtain rfl : type = .object := by
    by_contra hne
    cases (hother hne).1
  obtain ⟨hread, hreads⟩ := hread ⟨.object, {}⟩
  obtain ⟨hwrite, hwrites⟩ := hwrite ⟨.void, {}⟩ ⟨.object, {}⟩ _ v _ hv (.boxed rfl rfl)
  refine ⟨_, _, hread, rfl, hwrite, rfl, fun locals hlocals => ?_⟩
  have hfirst (P : Code) (hP : P[0]? = some (Code.loadSlot 0 .reference)) :
      Evaluates numbered P 0 r ⟨0, [], locals, (sampleHeap, ())⟩ [⟨0, [], locals, (sampleHeap, ())⟩]
        (.ref, 1) ⟨1, [(.ref, 1)], locals, (sampleHeap, ())⟩ :=
    ⟨.single (Iteration.step_load hP (by decide) hlocals rfl) rfl rfl, rfl, rfl⟩
  constructor
  · obtain ⟨rest, -, he, -⟩ :=
      hreads _ _ numbered _ 0 (Code.at_self _) _ _ _ _ (.ref, 7) (hfirst _ rfl) typed_sampleHeap rfl
    exact ⟨_, he.through⟩
  · obtain ⟨o, way, ho, -, hstore⟩ :=
      hwrites _ _ numbered _ 0 (Code.at_self _) _ _ _ _ (hfirst _ rfl) typed_sampleHeap rfl
    obtain rfl : (.ref, 2) = o := Option.some.inj ho
    obtain ⟨y, u, rest, hy, -, hthrough⟩ :=
      hstore _ (.int, 3) ⟨3, [(.int, 3), (.ref, 2)], locals, (sampleHeap, ())⟩
        ⟨.single ⟨_, rfl, rfl⟩ rfl rfl, rfl, rfl⟩
    exact ⟨_, y, hthrough, hy⟩

/-! ### A read that is converted -/

/-- A plain `Box`, annotated with a number for its placeholder. -/
def boxVars : List (String × Ty) := [("p", .struct sampleBox [])]

/-- The first object is a `Box`, and in it is the box of a number. -/
def boxHeap : Heap (Kind × Nat) := fun o m =>
  if o = (.ref, 1) ∧ m = ⟨"sample$Box", "value", "Ljava/lang/Object;"⟩ then some (.ref, 7) else none

/-- `p.value`, unboxed -/
def boxRead : Code :=
  [.slot .aload 0, Code.getField ⟨"sample$Box", "value", "Ljava/lang/Object;"⟩,
    Code.checkcast "java/lang/Integer", Code.callVirtual ⟨"java/lang/Integer", "intValue", "()I"⟩]

/-- The field of a receiver that is lowered as a plain `Box` and annotated with `Box{T: int}` holds
a reference, and reading it leaves a number. -/
theorem lowerExpr_reads_unboxed :
    lowerExpr (sampleContext boxVars []) (.ident ⟨.struct sampleBox [("T", .int)], {}⟩ "p")
      (sampleState boxVars) =
        .ok ⟨.struct sampleBox [], [.slot .aload 0]⟩ (sampleState boxVars) ∧
      lowerExpr (sampleContext boxVars [])
          (.property ⟨.int, {}⟩ (.ident ⟨.struct sampleBox [("T", .int)], {}⟩ "p") ["value"])
            (sampleState boxVars) =
        .ok ⟨.int, boxRead⟩ (sampleState boxVars) ∧
      boxHeap.walk (.ref, 1) [⟨"sample$Box", "value", "Ljava/lang/Object;"⟩] = some (.ref, 7) ∧
      ∀ locals : Nat → Option (Kind × Nat), locals 0 = some (.ref, 1) →
        ∃ trace, Iteration.Run numbered.toRuntime boxRead ⟨0, [], locals, (boxHeap, ())⟩ trace
          ⟨4, [(.int, 7)], locals, (boxHeap, ())⟩ := by
  have hr : lowerExpr (sampleContext boxVars []) (.ident ⟨.struct sampleBox [("T", .int)], {}⟩ "p")
      (sampleState boxVars) = .ok ⟨.struct sampleBox [], [.slot .aload 0]⟩ (sampleState boxVars) :=
    rfl
  have hchain : Chain sampleBox ["value"] [] ⟨sampleBox, [], "value", .generic "T"⟩ := .last rfl
  have htype : readType [] (.struct sampleBox [("T", .int)]) sampleBox []
      ⟨sampleBox, [], "value", .generic "T"⟩ = .int := if_pos ⟨rfl, rfl⟩
  have hannotated : Specialization.resolve (sampleContext boxVars []).bindings
      (.struct sampleBox [("T", .int)]) = .ok (.struct sampleBox [("T", .int)]) := rfl
  have hread := lowerExpr_read hr rfl hannotated hchain ⟨.int, {}⟩
  have hbindings : (sampleContext boxVars []).bindings = [] := rfl
  rw [hbindings, htype] at hread
  refine ⟨hr, hread, rfl, fun locals hlocals => ?_⟩
  have hload : Iteration.Step numbered.toRuntime boxRead ⟨0, [], locals, (boxHeap, ())⟩
      ⟨1, [(.ref, 1)], locals, (boxHeap, ())⟩ := Iteration.step_load rfl (by decide) hlocals rfl
  have hrest : Iteration.after numbered.toRuntime boxRead 3
      ⟨1, [(.ref, 1)], locals, (boxHeap, ())⟩ =
        some ⟨4, [(.int, 7)], locals, (boxHeap, ())⟩ := rfl
  obtain ⟨trace, hrun⟩ := Iteration.run_of_after hrest
  exact ⟨_, .step hload hrun⟩

end Fields

end ClassGen
