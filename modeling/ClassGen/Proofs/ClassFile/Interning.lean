import ClassGen.Proofs.ClassFile.Constants

/-! A pool that is asked for entries, one request after the other. Whether requests succeed or find
the pool full, its entries stay in order: each stands once, behind those it points to, and its index
follows from those before it. So an answer stays good, and the same request gets it again. -/

namespace ClassGen

namespace Pool

/-- How the entries, their indices and the count belong together. -/
structure InOrder (p : Pool) : Prop where
  /-- Equal entries share one index. -/
  distinct : p.entries.toList.Nodup
  /-- An index is one more than what the entries before it take. -/
  indexed : ∀ before e rest, p.entries.toList = before ++ e :: rest →
    p.index[e]?.map UInt16.toNat = some (1 + widths before)
  entered : ∀ e i, p.index[e]? = some i → e ∈ p.entries.toList
  count : p.count = 1 + widths p.entries.toList
  small : p.count ≤ 65535
  /-- Entries point to earlier ones, of the right kind. -/
  backed : ∀ before e rest, p.entries.toList = before ++ e :: rest →
    e.isBacked (.ofConstants before)

/-- In this pool the index stands for what the request asked for. -/
def Request.Denotes (p : Pool) (i : UInt16) : Request → Prop
  | utf8 text => p.text? i = some text
  | integer value => p.word? i = some (.int value)
  | float bits => p.word? i = some (.float bits)
  | double bits => p.double? i = some (.double bits)
  | className name => p.className? i = some name
  | string text => p.word? i = some (.text text)
  | fieldRef target => p.fieldRef? i = some target
  | methodRef target interface => p.methodRef? interface i = some target

/-- What a pool answers to a request. -/
def answer (p : Pool) (r : Request) : Except ClassFormatError UInt16 :=
  match r.perform p with
  | .ok i _ => .ok i
  | .error e _ => .error e

/-- Requests one after the other, whether they succeed or not: the answers, and the pool that is
left. -/
def serve (p : Pool) : List Request → List (Except ClassFormatError UInt16) × Pool
  | [] => ([], p)
  | r :: rest =>
    let later := serve (after r.perform p) rest
    (p.answer r :: later.1, later.2)

variable {p q : Pool} {e : PoolEntry} {i : UInt16}

/-! ### Entries and their indices -/

/-- An index leads to the entry that it follows from. -/
theorem entryFrom_eq_some {n k : Nat} {es : List PoolEntry} (h : entryFrom n es k = some e) :
    ∃ before rest, es = before ++ e :: rest ∧ k = n + widths before := by
  induction es generalizing n with
  | nil => cases h
  | cons f es ih =>
    rw [entryFrom] at h
    split at h
    · next hk =>
      cases h
      exact ⟨[], es, rfl, by simp [widths, hk]⟩
    · obtain ⟨before, rest, rfl, hk⟩ := ih h
      refine ⟨f :: before, rest, rfl, ?_⟩
      simp only [widths, List.map_cons, List.sum_cons] at hk ⊢
      omega

theorem entryFrom_split (n : Nat) (before : List PoolEntry) (e : PoolEntry)
    (rest : List PoolEntry) : entryFrom n (before ++ e :: rest) (n + widths before) = some e := by
  rw [← List.singleton_append, ← List.append_assoc]
  exact entryFrom_append (entryFrom_last n before e)

namespace InOrder

theorem lookup (hp : p.InOrder) {before rest : List PoolEntry}
    (h : p.entries.toList = before ++ e :: rest) :
    ∃ i, p.index[e]? = some i ∧ i.toNat = 1 + widths before :=
  Option.map_eq_some_iff.mp (hp.indexed before e rest h)

theorem valid (hp : p.InOrder) : p.Valid where
  found e i h := by
    obtain ⟨before, rest, hsplit⟩ := List.append_of_mem (hp.entered e i h)
    obtain ⟨j, hj, hindex⟩ := hp.lookup hsplit
    rw [h] at hj
    cases hj
    rw [at?, hsplit, hindex]
    exact entryFrom_split 1 before e rest
  count := hp.count
  small := hp.small

/-- An entry that has an index is found again, in a full pool too. -/
theorem intern_again (hp : p.InOrder) (h : p.at? i = some e) : intern e p = .ok i p := by
  obtain ⟨before, rest, hsplit, hi⟩ := entryFrom_eq_some h
  obtain ⟨j, hj, hindex⟩ := hp.lookup hsplit
  obtain rfl : j = i := UInt16.toNat_inj.mp (hindex.trans hi.symm)
  simp [intern, hj]

theorem new : ({} : Pool).InOrder where
  distinct := List.nodup_nil
  indexed before e rest h := by simp at h
  entered e i h := by simp at h
  count := rfl
  small := by decide
  backed before e rest h := by simp at h

/-- The last of the entries is the new one, or it is not and nothing changed for it. -/
theorem split_concat {es before rest : List PoolEntry} {f : PoolEntry}
    (h : es ++ [e] = before ++ f :: rest) :
    (before = es ∧ f = e) ∨ ∃ more, es = before ++ f :: more := by
  rcases List.append_eq_append_iff.mp h with ⟨between, rfl, hrest⟩ | ⟨between, rfl, hrest⟩
  · cases between with
    | nil => exact .inl ⟨(List.append_nil es).symm ▸ rfl, (List.cons.inj hrest).1.symm⟩
    | cons g between => simp at hrest
  · cases between with
    | nil => exact .inl ⟨(List.append_nil before).symm, (List.cons.inj hrest).1⟩
    | cons g between =>
      cases hrest
      exact .inr ⟨between, rfl⟩

/-- A new entry that points to what is there. -/
theorem push (hp : p.InOrder) (hnew : p.index[e]? = none) (hback : e.isBacked p)
    (hfit : p.count + e.width ≤ 65535) : (p.entered e).InOrder := by
  have hfresh : e ∉ p.entries.toList := fun hmem => by
    obtain ⟨before, rest, hsplit⟩ := List.append_of_mem hmem
    obtain ⟨i, hi, -⟩ := hp.lookup hsplit
    rw [hnew] at hi
    cases hi
  have hindex (f : PoolEntry) : (p.entered e).index[f]? = if e = f then some p.count.toUInt16
      else p.index[f]? := by
    rw [Pool.entered, Std.TreeMap.getElem?_insert]
    simp only [PoolEntry.order_eq]
  have hentries : (p.entered e).entries.toList = p.entries.toList ++ [e] := Array.toList_push
  refine ⟨?_, fun before f rest hsplit => ?_, fun f i hi => ?_, (hp.valid.entered hfit).count, hfit,
    fun before f rest hsplit => ?_⟩
  · rw [hentries, List.nodup_append]
    refine ⟨hp.distinct, List.nodup_singleton e, fun f hf g hg => ?_⟩
    rintro rfl
    exact hfresh (List.mem_singleton.mp hg ▸ hf)
  · rw [hentries] at hsplit
    rw [hindex]
    rcases split_concat hsplit with ⟨rfl, rfl⟩ | ⟨more, hold⟩
    · rw [if_pos rfl, Option.map_some, toNat_count hp.valid, hp.count]
    · have hne : e ≠ f := fun heq =>
        hfresh (heq ▸ hold ▸ List.mem_append_right _ List.mem_cons_self)
      rw [if_neg hne]
      exact hp.indexed before f more hold
  · rw [hindex] at hi
    rw [hentries]
    split at hi
    · next heq => exact List.mem_append_right _ (List.mem_singleton.mpr heq.symm)
    · exact List.mem_append_left _ (hp.entered f i hi)
  · rw [hentries] at hsplit
    rcases split_concat hsplit with ⟨rfl, rfl⟩ | ⟨more, hold⟩
    · have hsame : p.Extends (.ofConstants p.entries.toList) := by simp [Extends, ofConstants]
      exact hsame.isBacked hback
    · exact hp.backed before f more hold

end InOrder

/-! ### Computations on a pool -/

variable {α β : Type} {given : Pool → Prop} {x : PoolM α}

/-- Whether it succeeds or not, the computation keeps a pool in order and only adds to it, if
`given` holds of the pool and of all later ones. It fails only for want of room. -/
structure Orderly (given : Pool → Prop) (x : PoolM α) : Prop where
  keeps : ∀ p, p.InOrder → (∀ r, p.Extends r → given r) → (after x p).InOrder ∧
    p.Extends (after x p)
  overflows : ∀ p q e, x p = .error e q → e = .poolOverflow

/-- What it answered is answered again in any later pool, which is left as it is. -/
def Repeats (x : PoolM α) : Prop := Yields x fun r a => r.InOrder → x r = .ok a r

theorem after_ok {a : α} (h : x p = .ok a q) : after x p = q := by simp only [after, h]

theorem after_error {e : ClassFormatError} (h : x p = .error e q) :
    after x p = q := by simp only [after, h]

theorem orderly_intern (hback : ∀ r, given r → e.isBacked r) : Orderly given (intern e) where
  keeps p hp hgiven := by
    unfold after intern
    cases hi : p.index[e]? with
    | some i => exact ⟨hp, .refl p⟩
    | none =>
      by_cases hfit : p.count + e.width > 65535
      · simp only [hfit, if_true]
        exact ⟨hp, .refl p⟩
      · simp only [hfit, if_false]
        exact ⟨hp.push hi (hback p (hgiven p (.refl p))) (by omega), extends_entered p e⟩
  overflows p q error h := by
    unfold intern at h
    cases hi : p.index[e]? with
    | some i => simp [hi] at h
    | none =>
      simp only [hi] at h
      split at h
      · cases h
        rfl
      · cases h

/-- What comes after may rely on what was handed out. -/
theorem Orderly.bind {f : α → PoolM β} {mid : Pool → α → Prop} (hx : Orderly given x)
    (hy : Yields x mid) (hf : ∀ a, Orderly (fun r => given r ∧ mid r a) (f a)) :
    Orderly given (x >>= f) where
  keeps p hp hgiven := by
    have hfirst := hx.keeps p hp hgiven
    cases h : x p with
    | ok a q =>
      have hrun : after (x >>= f) p = after (f a) q := by simp only [after, Run.bind_of_ok h]
      rw [after_ok h] at hfirst
      obtain ⟨-, -, hmid⟩ := hy p q a hp.valid h
      have hrest := (hf a).keeps q hfirst.1 fun r hr => ⟨hgiven r (hfirst.2.trans hr), hmid r hr⟩
      rw [hrun]
      exact ⟨hrest.1, hfirst.2.trans hrest.2⟩
    | error e q =>
      have hrun : after (x >>= f) p = q := by simp only [after, Bind.bind, EStateM.bind, h]
      rw [after_error h] at hfirst
      rwa [hrun]
  overflows p q e h := by
    simp only [Bind.bind, EStateM.bind] at h
    cases hxp : x p with
    | ok a r =>
      rw [hxp] at h
      exact (hf a).overflows r q e h
    | error e' r =>
      rw [hxp] at h
      cases h
      exact hx.overflows p q e hxp

theorem repeats_intern (e : PoolEntry) : Repeats (intern e) :=
  (yields_intern e).imp fun _ _ h hr => hr.intern_again h

theorem Repeats.bind {f : α → PoolM β} (hx : Repeats x) (hf : ∀ a, Repeats (f a)) :
    Repeats (x >>= f) :=
  Yields.bind hx fun a => (hf a).imp fun r b hb ha hr => by rw [Run.bind_of_ok (ha hr), hb hr]

/-! ### Requests -/

theorem orderly_utf8 (text : String) : Orderly given (utf8 text) := orderly_intern fun _ _ => rfl

theorem orderly_className (name : String) : Orderly given (Pool.className name) :=
  (orderly_utf8 name).bind (yields_utf8 name) fun _ =>
    orderly_intern fun _ hr => by simp [PoolEntry.isBacked, hr.2]

theorem orderly_string (text : String) : Orderly given (string text) :=
  (orderly_utf8 text).bind (yields_utf8 text) fun _ =>
    orderly_intern fun _ hr => by simp [PoolEntry.isBacked, hr.2]

theorem orderly_nameAndType (name descriptor : String) :
    Orderly given (nameAndType name descriptor) :=
  (orderly_utf8 name).bind (yields_utf8 name) fun _ =>
    (orderly_utf8 descriptor).bind (yields_utf8 descriptor) fun _ =>
    orderly_intern fun _ hr => by simp [PoolEntry.isBacked, hr.1.2, hr.2]

/-- A reference to a member, of whatever kind. -/
theorem orderly_reference (make : UInt16 → UInt16 → PoolEntry) (m : Member)
    (hmake : ∀ r i j, (make i j).isBacked r = (r.member? i j).isSome) :
    Orderly given (do intern (make (← Pool.className m.owner)
      (← nameAndType m.name m.descriptor))) := by
  refine (orderly_className m.owner).bind (yields_className m.owner) fun owner => ?_
  refine (orderly_nameAndType m.name m.descriptor).bind (yields_nameAndType m.name m.descriptor)
    fun nt => ?_
  refine orderly_intern fun r hr => ?_
  rw [hmake, hr.2 owner m.owner hr.1.2]
  rfl

namespace Request

theorem orderly (r : Request) : Orderly (fun _ => True) r.perform := by
  cases r with
  | utf8 text => exact orderly_utf8 text
  | integer | float | double => exact orderly_intern fun _ _ => rfl
  | className name => exact orderly_className name
  | string text => exact orderly_string text
  | fieldRef target => exact orderly_reference .fieldRef target fun _ _ _ => rfl
  | methodRef target interface =>
    cases interface with
    | false => exact orderly_reference .methodRef target fun _ _ _ => rfl
    | true => exact orderly_reference .interfaceMethodRef target fun _ _ _ => rfl

theorem repeats (r : Request) : Repeats r.perform := by
  have hclass (name : String) : Repeats (Pool.className name) := (repeats_intern _).bind fun _ =>
    repeats_intern _
  have hnameAndType (name descriptor : String) : Repeats (nameAndType name descriptor) :=
    (repeats_intern _).bind fun _ => (repeats_intern _).bind fun _ => repeats_intern _
  cases r with
  | utf8 | integer | float | double => exact repeats_intern _
  | className name => exact hclass name
  | string text => exact (repeats_intern _).bind fun _ => repeats_intern _
  | fieldRef | methodRef =>
    exact (hclass _).bind fun _ => (hnameAndType _ _).bind fun _ => repeats_intern _

theorem denotes (r : Request) : Yields r.perform fun p i => r.Denotes p i := by
  cases r with
  | utf8 text => exact yields_utf8 text
  | integer value => exact (yields_intern _).imp fun r i h => by simp [Denotes, word?, h]
  | float bits => exact (yields_intern _).imp fun r i h => by simp [Denotes, word?, h]
  | double bits => exact (yields_intern _).imp fun r i h => by simp [Denotes, double?, h]
  | className name => exact yields_className name
  | string text => exact yields_string text
  | fieldRef target => exact yields_fieldRef target
  | methodRef target interface => exact yields_methodRef target interface

end Request

/-! ### Many requests -/

theorem answer_eq_ok {r : Request} :
    p.answer r = .ok i ↔ r.perform p = .ok i (after r.perform p) := by
  unfold answer after
  cases r.perform p <;> simp

theorem answer_error {r : Request} {error : ClassFormatError} (h : p.answer r = .error error) :
    error = .poolOverflow := by
  unfold answer at h
  cases hr : r.perform p with
  | ok i q => simp [hr] at h
  | error e q =>
    simp only [hr, Except.error.injEq] at h
    exact h ▸ r.orderly.overflows p q e hr

theorem serve_inOrder (hp : p.InOrder) (rs : List Request) :
    (p.serve rs).2.InOrder ∧ p.Extends (p.serve rs).2 := by
  induction rs generalizing p with
  | nil => exact ⟨hp, .refl p⟩
  | cons r rs ih =>
    obtain ⟨hq, hpq⟩ := r.orderly.keeps p hp fun _ _ => trivial
    obtain ⟨hlast, hext⟩ := ih hq
    exact ⟨hlast, hpq.trans hext⟩

theorem serve_append (p : Pool) (rs more : List Request) :
    (p.serve (rs ++ more)).2 = ((p.serve rs).2.serve more).2 := by
  induction rs generalizing p with
  | nil => rfl
  | cons r rs ih => exact ih _

theorem length_serve (p : Pool) (rs : List Request) : (p.serve rs).1.length = rs.length := by
  induction rs generalizing p with
  | nil => rfl
  | cons r rs ih => exact congrArg (· + 1) (ih _)

theorem serve_errors {error : ClassFormatError} {rs : List Request}
    (h : .error error ∈ (p.serve rs).1) : error = .poolOverflow := by
  induction rs generalizing p with
  | nil => cases h
  | cons r rs ih =>
    rcases List.mem_cons.mp h with h | h
    · exact answer_error h.symm
    · exact ih h

/-- An answer stays good to the end of the requests, and is given again there. -/
theorem serve_answers (hp : p.InOrder) {rs : List Request} {r : Request}
    (h : (r, .ok i) ∈ rs.zip (p.serve rs).1) :
    r.Denotes (p.serve rs).2 i ∧ r.perform (p.serve rs).2 = .ok i (p.serve rs).2 := by
  induction rs generalizing p with
  | nil => cases h
  | cons first rs ih =>
    obtain ⟨hq, -⟩ := first.orderly.keeps p hp fun _ _ => trivial
    rcases List.mem_cons.mp h with h | h
    · obtain ⟨rfl, hanswer⟩ := Prod.mk.inj h
      have hrun := answer_eq_ok.mp hanswer.symm
      obtain ⟨hlast, hext⟩ := serve_inOrder hq rs
      exact ⟨(r.denotes p _ i hp.valid hrun).2.2 _ hext,
        (r.repeats p _ i hp.valid hrun).2.2 _ hext hlast⟩
    · exact ih hq h

/-- However often a new pool is asked, with success or without: its entries stand once each; the
index of an entry is one more than what those before it take, and the count one more than what all
take, at most 65535; each entry points to earlier ones of the right kind. A request fails only for
want of room. What an index led to at some time it leads to ever after, and a request that was
granted is granted again with the same index, which still stands for what was asked for, and nothing
is entered for it. -/
theorem serve_stays_in_order (rs : List Request) :
    let served := ({} : Pool).serve rs
    let p := served.2
    p.entries.toList.Nodup ∧
    (∀ before e rest, p.entries.toList = before ++ e :: rest →
      p.index[e]?.map UInt16.toNat = some (1 + widths before) ∧ e.isBacked (.ofConstants before)) ∧
    (∀ e i, p.index[e]? = some i → e ∈ p.entries.toList ∧ p.at? i = some e) ∧
    p.count = 1 + widths p.entries.toList ∧ p.count ≤ 65535 ∧
    served.1.length = rs.length ∧ (∀ error, .error error ∈ served.1 → error = .poolOverflow) ∧
    (∀ earlier more i e, rs = earlier ++ more → (({} : Pool).serve earlier).2.at? i = some e →
      p.at? i = some e) ∧
    ∀ r i, (r, .ok i) ∈ rs.zip served.1 → r.Denotes p i ∧ r.perform p = .ok i p := by
  obtain ⟨horder, -⟩ := serve_inOrder InOrder.new rs
  refine ⟨horder.distinct, fun before e rest h =>
    ⟨horder.indexed before e rest h, horder.backed before e rest h⟩, fun e i h =>
      ⟨horder.entered e i h, horder.valid.found e i h⟩, horder.count, horder.small,
      length_serve _ rs,
    fun error => serve_errors, ?_, fun r i => serve_answers InOrder.new⟩
  rintro earlier more i e rfl hat
  rw [serve_append]
  exact (serve_inOrder (serve_inOrder InOrder.new earlier).1 more).2.entry hat

end Pool

end ClassGen
