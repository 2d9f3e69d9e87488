import Mathlib.Algebra.GroupWithZero.Nat
import Std.Data.TreeMap.Lemmas
import ClassGen.ClassFile.Pool
import ClassGen.Proofs.Run

/-! The constant pool as its readers see it. Indices are looked up in the list of entries alone, a
double taking two of them. A pool in use only grows, so an index stays good for what it was handed
out for. -/

namespace ClassGen

namespace PoolEntry

instance : Std.TransCmp order :=
  inferInstanceAs (Std.TransCmp (compareLex (compareOn fun e => e.tag.toNat)
    (compareLex (compareOn number) (compareOn text))))

theorem pair_inj {a b c d : UInt16} (h : a.toNat * 65536 + b.toNat = c.toNat * 65536 + d.toNat) :
    a = c ∧ b = d := by
  have hb := b.toNat_lt
  have hd := d.toNat_lt
  exact ⟨UInt16.toNat_inj.mp (by omega), UInt16.toNat_inj.mp (by omega)⟩

theorem int_inj {a b : Int32} (h : a.toUInt32.toNat = b.toUInt32.toNat) : a = b := by
  obtain ⟨a⟩ := a
  obtain ⟨b⟩ := b
  exact congrArg Int32.ofUInt32 (UInt32.toNat_inj.mp h)

/-- Only an entry itself is as large as it. -/
theorem eq_of_order {e f : PoolEntry} (h : order e f = .eq) : e = f := by
  simp only [order, compareLex_eq_eq, compareOn, Std.LawfulEqCmp.compare_eq_iff_eq] at h
  obtain ⟨htag, hnumber, htext⟩ := h
  cases e <;> cases f <;> simp only [tag, number, text] at htag hnumber htext <;>
    first
    | exact absurd htag (by decide)
    | rw [htext]
    | rw [UInt32.toNat_inj.mp hnumber]
    | rw [UInt64.toNat_inj.mp hnumber]
    | rw [UInt16.toNat_inj.mp hnumber]
    | rw [(pair_inj hnumber).1, (pair_inj hnumber).2]
    | rw [int_inj hnumber]

theorem order_eq {e f : PoolEntry} : order e f = .eq ↔ e = f :=
  ⟨eq_of_order, fun h => h ▸ Std.ReflCmp.compare_self⟩

end PoolEntry

namespace Pool

/-- The entry with index `i` where the first one has index `n`. -/
def entryFrom : Nat → List PoolEntry → Nat → Option PoolEntry
  | _, [], _ => none
  | n, e :: rest, i => if i = n then some e else entryFrom (n + e.width) rest i

/-- The entry with index `i`. -/
def at? (p : Pool) (i : UInt16) : Option PoolEntry := entryFrom 1 p.entries.toList i.toNat

/-- Indices that entries take. -/
def widths (entries : List PoolEntry) : Nat := (entries.map PoolEntry.width).sum

theorem width_pos (e : PoolEntry) : 0 < e.width := by cases e <;> simp [PoolEntry.width]

theorem entryFrom_append {n i : Nat} {es fs : List PoolEntry} {e : PoolEntry}
    (h : entryFrom n es i = some e) : entryFrom n (es ++ fs) i = some e := by
  induction es generalizing n with
  | nil => cases h
  | cons f es ih =>
    rw [List.cons_append, entryFrom]
    rw [entryFrom] at h
    split
    · next hi => rwa [if_pos hi] at h
    · next hi =>
      rw [if_neg hi] at h
      exact ih h

theorem entryFrom_last (n : Nat) (es : List PoolEntry) (e : PoolEntry) :
    entryFrom n (es ++ [e]) (n + widths es) = some e := by
  induction es generalizing n with
  | nil => simp [entryFrom, widths]
  | cons f es ih =>
    have hpos := width_pos f
    rw [List.cons_append, entryFrom, widths, List.map_cons, List.sum_cons, ← widths,
      if_neg (by omega), ← Nat.add_assoc]
    exact ih _

/-- The entries of `p` are the first ones of `q`. -/
def Extends (p q : Pool) : Prop := p.entries.toList <+: q.entries.toList

theorem Extends.refl (p : Pool) : p.Extends p := List.prefix_refl _

theorem Extends.trans {p q r : Pool} (h : p.Extends q) (k : q.Extends r) : p.Extends r :=
  List.IsPrefix.trans h k

/-- An index means the same in a pool that has grown. -/
theorem Extends.entry {p q : Pool} (h : p.Extends q) {i : UInt16} {e : PoolEntry}
    (he : p.at? i = some e) : q.at? i = some e := by
  obtain ⟨more, hmore⟩ := h
  rw [at?, ← hmore]
  exact entryFrom_append he

/-- What holds of every pool in use. -/
structure Valid (p : Pool) : Prop where
  /-- The index of an entry leads to it. -/
  found : ∀ e i, p.index[e]? = some i → p.at? i = some e
  count : p.count = 1 + widths p.entries.toList
  small : p.count ≤ 65535

theorem valid_new : ({} : Pool).Valid where
  found e i h := by simp at h
  count := rfl
  small := by decide

variable {p q : Pool} {e : PoolEntry} {i : UInt16}

theorem toNat_count (hp : p.Valid) : p.count.toUInt16.toNat = p.count :=
  UInt16.toNat_ofNat_of_lt' (Nat.lt_succ_of_le hp.small)

/-- The pool after `e` was entered. -/
def entered (p : Pool) (e : PoolEntry) : Pool where
  entries := p.entries.push e
  index := p.index.insert e p.count.toUInt16
  count := p.count + e.width

theorem extends_entered (p : Pool) (e : PoolEntry) : p.Extends (p.entered e) := by
  rw [Extends, entered, Array.toList_push]
  exact List.prefix_append _ _

theorem at?_entered (hp : p.Valid) : (p.entered e).at? p.count.toUInt16 = some e := by
  rw [at?, entered, Array.toList_push, toNat_count hp, hp.count]
  exact entryFrom_last 1 _ e

theorem Valid.entered (hp : p.Valid) (hfit : p.count + e.width ≤ 65535) : (p.entered e).Valid where
  found f i h := by
    rw [Pool.entered, Std.TreeMap.getElem?_insert] at h
    split at h
    · next heq =>
      cases h
      rw [← PoolEntry.order_eq.mp heq]
      exact at?_entered hp
    · exact (extends_entered p e).entry (hp.found f i h)
  count := by
    simp only [Pool.entered, hp.count, widths, Array.toList_push, List.map_append, List.sum_append,
      List.map_cons, List.map_nil, List.sum_cons, List.sum_nil]
    omega
  small := hfit

/-- An index handed out leads to the entry it was asked for. -/
theorem intern_ok (hp : p.Valid) (h : intern e p = .ok i q) :
    q.Valid ∧ p.Extends q ∧ q.at? i = some e := by
  unfold intern at h
  cases hi : p.index[e]? with
  | some j =>
    simp only [hi, EStateM.Result.ok.injEq] at h
    obtain ⟨rfl, rfl⟩ := h
    exact ⟨hp, .refl p, hp.found e j hi⟩
  | none =>
    simp only [hi] at h
    split at h
    · cases h
    · next hfit =>
      cases h
      exact ⟨hp.entered (by omega), extends_entered p e, at?_entered hp⟩

/-- A full pool is left as it is. -/
theorem intern_error {error : ClassFormatError} (h : intern e p = .error error q) : q = p := by
  unfold intern at h
  cases hi : p.index[e]? with
  | some j => simp [hi] at h
  | none =>
    simp only [hi] at h
    split at h
    · cases h
      rfl
    · cases h

/-! ### Pools in use -/

/-- The pool that a computation leaves behind, whether it fails or not. -/
def after {α : Type} (x : PoolM α) (p : Pool) : Pool :=
  match x p with
  | .ok _ q => q
  | .error _ q => q

/-- What a pool can be asked to enter. -/
inductive Request where
  | utf8 (text : String)
  | integer (value : Int32)
  | float (bits : UInt32)
  | double (bits : UInt64)
  | className (name : String)
  | string (text : String)
  | fieldRef (target : Member)
  | methodRef (target : Member) (interface : Bool)

def Request.perform : Request → PoolM UInt16
  | utf8 text => Pool.utf8 text
  | integer value => Pool.integer value
  | float bits => Pool.float bits
  | double bits => Pool.double bits
  | className name => Pool.className name
  | string text => Pool.string text
  | fieldRef target => Pool.fieldRef target
  | methodRef target interface => Pool.methodRef target interface

/-- A pool that was new once, and has since been asked for entries. -/
inductive Reachable : Pool → Prop
  | new : Reachable {}
  | asked {p : Pool} (r : Request) (h : Reachable p) : Reachable (after r.perform p)

def Keeps {α : Type} (x : PoolM α) : Prop := ∀ p : Pool, p.Valid → (after x p).Valid

theorem keeps_intern (e : PoolEntry) : Keeps (intern e) := by
  intro p hp
  unfold after
  split
  · next h => exact (intern_ok hp h).1
  · next h => exact intern_error h ▸ hp

theorem Keeps.bind {α β : Type} {x : PoolM α} {f : α → PoolM β} (hx : Keeps x)
    (hf : ∀ a, Keeps (f a)) : Keeps (x >>= f) := by
  intro p hp
  have hq := hx p hp
  unfold after at hq ⊢
  simp only [Bind.bind, EStateM.bind]
  cases h : x p with
  | ok a q =>
    simp only [h] at hq ⊢
    exact hf a q hq
  | error e q =>
    simp only [h] at hq ⊢
    exact hq

theorem keeps_className (name : String) : Keeps (className name) :=
  (keeps_intern _).bind fun _ => keeps_intern _

theorem keeps_nameAndType (name descriptor : String) : Keeps (nameAndType name descriptor) :=
  (keeps_intern _).bind fun _ => (keeps_intern _).bind fun _ => keeps_intern _

theorem Request.keeps (r : Request) : Keeps r.perform := by
  cases r with
  | utf8 | integer | float | double => exact keeps_intern _
  | className => exact keeps_className _
  | string => exact (keeps_intern _).bind fun _ => keeps_intern _
  | fieldRef | methodRef =>
    exact (keeps_className _).bind fun _ => (keeps_nameAndType _ _).bind fun _ => keeps_intern _

theorem Reachable.valid {p : Pool} (h : Reachable p) : p.Valid := by
  induction h with
  | new => exact valid_new
  | asked r _ ih => exact r.keeps _ ih

/-! ### Reading -/

def text? (p : Pool) (i : UInt16) : Option String :=
  match p.at? i with
  | some (.utf8 text) => some text
  | _ => none

def className? (p : Pool) (i : UInt16) : Option String :=
  match p.at? i with
  | some (.className name) => p.text? name
  | _ => none

/-- The member with this owner, name and descriptor. -/
def member? (p : Pool) (owner nameAndType : UInt16) : Option Member :=
  match p.at? nameAndType with
  | some (.nameAndType name descriptor) => do
    return ⟨← p.className? owner, ← p.text? name, ← p.text? descriptor⟩
  | _ => none

def fieldRef? (p : Pool) (i : UInt16) : Option Member :=
  match p.at? i with
  | some (.fieldRef owner nt) => p.member? owner nt
  | _ => none

def methodRef? (p : Pool) (interface : Bool) (i : UInt16) : Option Member :=
  match p.at? i with
  | some (.methodRef owner nt) => if interface then none else p.member? owner nt
  | some (.interfaceMethodRef owner nt) => if interface then p.member? owner nt else none
  | _ => none

/-- A constant of one word. -/
def word? (p : Pool) (i : UInt16) : Option Constant :=
  match p.at? i with
  | some (.integer value) => some (.int value)
  | some (.float bits) => some (.float bits)
  | some (.string text) => (p.text? text).map .text
  | _ => none

def double? (p : Pool) (i : UInt16) : Option Constant :=
  match p.at? i with
  | some (.double bits) => some (.double bits)
  | _ => none

/-- A successful computation keeps a valid pool valid, only adds to it, and what it hands out is
good in the pool it leaves and in every later one. -/
def Yields {α : Type} (x : PoolM α) (good : Pool → α → Prop) : Prop :=
  ∀ p q a, Valid p → x p = .ok a q → Valid q ∧ p.Extends q ∧ ∀ r, q.Extends r → good r a

theorem yields_pure {α : Type} {a : α} {good : Pool → α → Prop} (h : ∀ r, good r a) :
    Yields (pure a) good := by
  intro p q b hp hx
  obtain ⟨rfl, rfl⟩ := Run.pure_ok.mp hx
  exact ⟨hp, .refl p, fun r _ => h r⟩

theorem yields_intern (e : PoolEntry) : Yields (intern e) fun r i => r.at? i = some e := by
  intro p q i hp hx
  obtain ⟨hq, hpq, he⟩ := intern_ok hp hx
  exact ⟨hq, hpq, fun r hr => hr.entry he⟩

theorem Yields.bind {α β : Type} {x : PoolM α} {f : α → PoolM β} {mid : Pool → α → Prop}
    {good : Pool → β → Prop} (hx : Yields x mid)
    (hf : ∀ a, Yields (f a) fun r b => mid r a → good r b) : Yields (x >>= f) good := by
  intro p r b hp h
  obtain ⟨a, q, ha, hb⟩ := Run.bind_ok.mp h
  obtain ⟨hq, hpq, hmid⟩ := hx p q a hp ha
  obtain ⟨hr, hqr, hgood⟩ := hf a q r b hq hb
  exact ⟨hr, hpq.trans hqr, fun s hs => hgood s hs (hmid s (hqr.trans hs))⟩

theorem Yields.imp {α : Type} {x : PoolM α} {mid good : Pool → α → Prop} (hx : Yields x mid)
    (h : ∀ r a, mid r a → good r a) : Yields x good := fun p q a hp ha =>
  have ⟨hq, hpq, hmid⟩ := hx p q a hp ha
  ⟨hq, hpq, fun r hr => h r a (hmid r hr)⟩

theorem Yields.map {α β : Type} {x : PoolM α} {f : α → β} {mid : Pool → α → Prop}
    {good : Pool → β → Prop} (hx : Yields x mid) (h : ∀ r a, mid r a → good r (f a)) :
    Yields (f <$> x) good := by
  intro p q b hp hb
  obtain ⟨a, ha, rfl⟩ := Run.map_ok.mp hb
  obtain ⟨hq, hpq, hmid⟩ := hx p q a hp ha
  exact ⟨hq, hpq, fun r hr => h r a (hmid r hr)⟩

theorem yields_utf8 (text : String) : Yields (utf8 text) fun r i => r.text? i = some text :=
  (yields_intern _).imp fun r i h => by simp [text?, h]

theorem yields_className (name : String) : Yields (className name) fun r i =>
    r.className? i = some name :=
  (yields_utf8 name).bind fun _ =>
    (yields_intern _).imp fun r i h hname => by simp [className?, h, hname]

theorem yields_string (text : String) : Yields (string text) fun r i =>
    r.word? i = some (.text text) :=
  (yields_utf8 text).bind fun _ =>
    (yields_intern _).imp fun r i h htext => by simp [word?, h, htext]

theorem yields_nameAndType (name descriptor : String) :
    Yields (nameAndType name descriptor) fun r i => ∀ owner class', r.className? owner =
      some class' →
      r.member? owner i = some ⟨class', name, descriptor⟩ :=
  (yields_utf8 name).bind fun _ => (yields_utf8 descriptor).bind fun _ =>
    (yields_intern _).imp fun r i h hdescriptor hname owner class' howner => by
      simp [member?, h, hname, hdescriptor, howner]

theorem yields_fieldRef (m : Member) : Yields (fieldRef m) fun r i => r.fieldRef? i = some m :=
  (yields_className m.owner).bind fun owner =>
    (yields_nameAndType m.name m.descriptor).bind fun _ =>
    (yields_intern _).imp fun r i h hnt howner => by simp [fieldRef?, h, hnt owner m.owner howner]

theorem yields_methodRef (m : Member) (interface : Bool) :
    Yields (methodRef m interface) fun r i => r.methodRef? interface i = some m :=
  (yields_className m.owner).bind fun owner =>
    (yields_nameAndType m.name m.descriptor).bind fun _ =>
    (yields_intern _).imp fun r i h hnt howner => by
      cases interface <;> simp_all [methodRef?, hnt owner m.owner howner]

end Pool

end ClassGen
