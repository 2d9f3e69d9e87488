import ClassGen.Proofs.Iteration.Pieces

/-! Loops over iterators: a round for each element, by what a round preserves, and the protocol of
the calls that the loop makes. -/

namespace ClassGen.Iteration

variable {V W : Type}

/-! ### Rounds -/

namespace LoopCode

variable {m : LoopCode} {R : Runtime V W} {P : Code} {n : Nat} {σ τ : State V W}
  {trace : List (State V W)} {it : V} {xs : List V} {locals : Nat → Option V} {w : W}

/-- Rounds of the loop from its head on, one for each element. In each the iterator is asked whether
there is one and asked for it, the variable is set to it, and the body is run; at last the iterator
has no more, and the loop is left. -/
inductive Rounds (m : LoopCode) (R : Runtime V W) (P : Code) (n : Nat) (it : V) :
    List V → State V W → List (State V W) → State V W → Prop
  | exhausted {σ τ : State V W} {trace : List (State V W)} (hrun : Run R P σ trace τ)
    (hpc : trace.map State.pc = List.range' (n + m.headAt) 4 ++ [n + m.backAt + 1])
    (hcalls : calls R P trace = [asked R it false]) (hend : τ.pc = n + m.code.length) :
    Rounds m R P n it [] σ trace τ
  | round {x y : V} {xs : List V} {σ β ε σ' τ : State V W} {asking inside rest : List (State V W)}
    (hhead : Through R P (n + m.headAt) m.head σ asking β)
    (hcalls : calls R P asking = [asked R it true, given it x])
    (hy : R.convert m.element.type x = some y) (hslot : β.locals m.element.slot = some y)
    (hbody : Through R P (n + m.bodyAt) m.body β inside ε) (hback : Step R P ε σ')
    (hrest : Rounds m R P n it xs σ' rest τ) :
    Rounds m R P n it (x :: xs) σ (asking ++ inside ++ ε :: rest) τ

/-- Without an element the loop is left. -/
theorem run_exhausted (st : List V) (hm : m.Placed P n) (hit : locals m.iterator = some it)
    (hrem : R.remaining w it = some []) :
    ∃ trace w', Rounds m R P n it [] ⟨n + m.headAt, st, locals, w⟩ trace
      ⟨n + m.code.length, st, locals, w'⟩ := by
  obtain ⟨-, -, -, -, -, hdone⟩ := at_pieces hm.at_code
  obtain ⟨trace, w', hrun, hpc, hcalls, -⟩ := run_ask st hm hit hrem
  have hlast : Run R P ⟨n + m.backAt + 1, st, locals, w'⟩ [⟨n + m.backAt + 1, st, locals, w'⟩]
      ⟨n + m.code.length, st, locals, w'⟩ := by
    rw [length_code]
    exact .single (step_mark hdone)
  refine ⟨_, w', .exhausted (hrun.trans hlast) (by rw [List.map_append, hpc]; rfl) ?_ rfl⟩
  have hnone : call? R P ⟨n + m.backAt + 1, st, locals, w'⟩ = none := call?_eq_none hdone rfl
  rw [calls, List.filterMap_append, ← calls, hcalls, List.filterMap_cons, hnone]
  rfl

/-- The loop, begun in the state `σ`, begins its body in the state `β`. -/
def Begins (m : LoopCode) (R : Runtime V W) (P : Code) (n : Nat) (σ β : State V W) : Prop :=
  β.pc = n + m.bodyAt ∧ ∃ trace, Run R P σ trace β ∧ ∀ κ ∈ trace, Code.Within n m.code κ.pc

/-- From here the body is run to its end, and nothing on the way changes what the iterator has left.
-/
def Falls (m : LoopCode) (R : Runtime V W) (P : Code) (n : Nat) (it : V) (β : State V W) : Prop :=
  ∃ trace ε, Run R P β trace ε ∧ ε.pc = n + m.backAt ∧
    ∀ ρ ∈ trace ++ [ε], R.remaining ρ.world it = R.remaining β.world it

/-- Whenever the body is begun with the stack that the loop began with and is run to its end, it
leaves this stack. -/
def Balanced (m : LoopCode) (R : Runtime V W) (P : Code) (n : Nat) (σ : State V W) : Prop :=
  ∀ β inside ε, m.Begins R P n σ β → β.stack = σ.stack →
    Through R P (n + m.bodyAt) m.body β inside ε → ε.stack = σ.stack

/-- What a round preserves: the iterator stays in its slot, so there are as many rounds as there are
elements. A balanced body also preserves the stack. -/
theorem exists_rounds {start : State V W} {before : List (State V W)} {st : List V}
    (hm : m.Placed P n) (hfalls : ∀ β, m.Begins R P n start β → m.Falls R P n it β)
    (hfits : ∀ x ∈ xs, (R.convert m.element.type x).isSome = true)
    (hstart : Run R P start before ⟨n + m.headAt, st, locals, w⟩)
    (hbefore : ∀ κ ∈ before, Code.Within n m.code κ.pc) (hit : locals m.iterator = some it)
    (hrem : R.remaining w it = some xs) :
    ∃ trace τ, Rounds m R P n it xs ⟨n + m.headAt, st, locals, w⟩ trace τ ∧
      (m.Balanced R P n start → st = start.stack → τ.stack = start.stack) := by
  obtain ⟨-, -, -, hbodyAt, -, -⟩ := at_pieces hm.at_code
  have hkind := R.kind_remaining w it xs hrem
  induction xs generalizing st locals w before with
  | nil =>
    obtain ⟨trace, w', hrounds⟩ := run_exhausted st hm hit hrem
    exact ⟨trace, _, hrounds, fun _ hst => hst⟩
  | cons x xs ih =>
    rw [List.forall_mem_cons] at hfits
    obtain ⟨y, hy⟩ := Option.isSome_iff_exists.mp hfits.1
    obtain ⟨asking, w₁, hhead, hcalls, hrem₁⟩ := through_head st hm hit hrem hy
    have hentered := hstart.trans hhead.run
    have hasking : ∀ κ ∈ before ++ asking, Code.Within n m.code κ.pc :=
      List.forall_mem_append.mpr ⟨hbefore, fun κ hκ => within_of_head (hhead.inside κ hκ)⟩
    have hbegins : m.Begins R P n start ⟨n + m.bodyAt, st, store R locals m.element.slot y, w₁⟩ :=
      ⟨rfl, _, hentered, hasking⟩
    obtain ⟨trace, last, hrun, hlast, hleft⟩ := hfalls _ hbegins
    have hbackAt : n + m.backAt = n + m.bodyAt + m.body.length := by rw [backAt, Nat.add_assoc]
    obtain ⟨inside, ε, later, rfl, hbody, hlater⟩ :=
      hrun.through hm.inward hm.once hbodyAt rfl (hlast.trans hbackAt)
    have hrem₂ : R.remaining ε.world it = some xs := by
      rw [hleft ε (List.append_assoc inside .. ▸ List.mem_append_right _ hlater.mem), hrem₁]
    have hstored : store R locals m.element.slot y m.iterator = some it :=
      store_of_ne (by have := hm.next; omega) (fun _ => by have := hm.next; omega) hit hkind
    have hit₂ : ε.locals m.iterator = some it :=
      Through.keeps_slot hbody hbodyAt hstored hkind hm.spares
    have hpc : ε.pc = n + m.backAt := hbody.ends.trans hbackAt.symm
    obtain ⟨pc, stack, locals₂, w₂⟩ := ε
    subst hpc
    have hback := step_back (R := R) hm stack locals₂ w₂
    have hreturned := hentered.trans (hbody.run.trans (.single hback))
    have hround : ∀ κ ∈ inside ++ [⟨n + m.backAt, stack, locals₂, w₂⟩],
        Code.Within n m.code κ.pc := by
      rw [List.forall_mem_append, List.forall_mem_singleton]
      exact ⟨fun κ hκ => within_of_body (hbody.inside κ hκ), within_back⟩
    obtain ⟨rest, τ, hrest, hτ⟩ :=
      ih hfits.2 hreturned (List.forall_mem_append.mpr ⟨hasking, hround⟩) hit₂ hrem₂
    exact ⟨_, τ, .round hhead hcalls hy (store_self ..) hbody hback hrest,
      fun hbalanced hst => hτ hbalanced (hbalanced _ inside _ hbegins hst hbody)⟩

/-- The way out of the loop passes the start of the head, then the end. -/
theorem pc_of_exhausted (hpc : trace.map State.pc = List.range' (n + m.headAt) 4 ++
    [n + m.backAt + 1]) {ρ : State V W} (hρ : ρ ∈ trace) :
    (n + m.headAt ≤ ρ.pc ∧ ρ.pc < n + m.bodyAt) ∨ ρ.pc = n + m.backAt + 1 := by
  have hmem : ρ.pc ∈ trace.map State.pc := List.mem_map_of_mem hρ
  have hhead : 4 < m.head.length := by simp [head, advanceLoop]
  rw [hpc, List.mem_append, List.mem_range'_1, List.mem_singleton] at hmem
  rw [bodyAt]
  omega

namespace Rounds

theorem run (h : Rounds m R P n it xs σ trace τ) : Run R P σ trace τ := by
  induction h with
  | exhausted hrun => exact hrun
  | round hhead _ _ _ hbody hback _ ih => exact (hhead.run.trans hbody.run).trans (.step hback ih)

/-- The rounds are made in the loop. -/
theorem within (h : Rounds m R P n it xs σ trace τ) :
    τ.pc = n + m.code.length ∧ ∀ ρ ∈ trace, n + m.headAt ≤ ρ.pc ∧ ρ.pc < n + m.code.length := by
  have hback : m.backAt = m.headAt + m.head.length + m.body.length := rfl
  have hbody : m.bodyAt = m.headAt + m.head.length := rfl
  have hlength := m.length_code
  induction h with
  | @exhausted σ τ trace hrun hpc hcalls hend =>
    refine ⟨hend, fun ρ hρ => ?_⟩
    have hat := pc_of_exhausted hpc hρ
    omega
  | round hhead hcalls hy hslot hthrough hgo hrest ih =>
    refine ⟨ih.1, fun ρ hρ => ?_⟩
    rw [List.mem_append, List.mem_append, List.mem_cons] at hρ
    rcases hρ with (hρ | hρ) | rfl | hρ
    · have hin := hhead.within hρ
      omega
    · have hin := hthrough.within hρ
      omega
    · have hend := hthrough.pc_end
      omega
    · exact ih.2 ρ hρ

end Rounds

/-- Not in the body. -/
def outside (m : LoopCode) (n : Nat) (σ : State V W) : Bool :=
  σ.pc < n + m.bodyAt || n + m.backAt ≤ σ.pc

theorem outside_iff : m.outside n σ = true ↔ σ.pc < n + m.bodyAt ∨ n + m.backAt ≤ σ.pc := by
  rw [outside, Bool.or_eq_true, decide_eq_true_eq, decide_eq_true_eq]

/-- The calls that the loop itself makes. -/
theorem Rounds.calls_outside (h : Rounds m R P n it xs σ trace τ) (hm : m.Placed P n) :
    calls R P (trace.filter (m.outside n)) =
      xs.flatMap (fun x => [asked R it true, given it x]) ++ [asked R it false] := by
  obtain ⟨-, -, -, -, hgoto, -⟩ := at_pieces hm.at_code
  have hback : m.backAt = m.bodyAt + m.body.length := rfl
  have hbody : m.bodyAt = m.headAt + m.head.length := rfl
  induction h with
  | @exhausted σ τ trace hrun hpc hcalls hend =>
    rw [List.filter_eq_self.mpr fun ρ hρ => ?_]
    · exact hcalls
    · have hat := pc_of_exhausted hpc hρ
      rw [outside_iff]
      omega
  | @round x y xs σ β ε σ' τ asking inside rest hhead hcalls hy hslot hthrough hgo hrest ih =>
    have hasking : asking.filter (m.outside n) = asking := List.filter_eq_self.mpr fun ρ hρ => by
      have hin := hhead.within hρ
      rw [outside_iff]
      omega
    have hinside : inside.filter (m.outside n) = [] := List.filter_eq_nil_iff.mpr fun ρ hρ => by
      have hin := hthrough.within hρ
      rw [outside_iff]
      omega
    have hpc : ε.pc = n + m.backAt := by rw [hthrough.pc_end, hback, Nat.add_assoc]
    have hnone : call? R P ε = none := call?_eq_none (hpc ▸ hgoto) rfl
    have hε : m.outside n ε = true := outside_iff.mpr (.inr hpc.ge)
    rw [List.filter_append, List.filter_append, hasking, hinside, List.append_nil,
      List.filter_cons_of_pos hε]
    rw [calls] at hcalls ih ⊢
    rw [List.filterMap_append, hcalls, List.filterMap_cons, hnone, ih]
    rfl

/-- The source is evaluated to `v`, which is of the kind of its type, and `it` is the iterator of
that. It gives `xs`, all of them of the type of the variable. Whenever the body is begun, it is run
to its end and leaves the iterator where it is. -/
structure Given (m : LoopCode) (R : Runtime V W) (P : Code) (n : Nat) (σ : State V W)
    (first : List (State V W)) (ρ : State V W) (v it : V) (w : W) (xs : List V) : Prop where
  evaluated : Through R P n m.source.code σ first ρ
  value : ρ.stack = v :: σ.stack
  kinds : m.source.type.kinds = [R.kind v]
  opened : R.Opens v ρ.world it w m.source.type
  yields : R.remaining w it = some xs
  fits : ∀ x ∈ xs, (R.convert m.element.type x).isSome = true
  falls : ∀ β, m.Begins R P n σ β → m.Falls R P n it β

/-- How the loop is run once its source is evaluated: the iterator is made and kept, then there is a
round for each element, and the loop is left at its end. -/
structure Iterated (m : LoopCode) (R : Runtime V W) (P : Code) (n : Nat) (ρ : State V W) (it : V)
    (xs : List V) (trace : List (State V W)) (τ : State V W) : Prop where
  run : Run R P ρ trace τ
  rounds : ∃ opening κ later, trace = opening ++ later ∧
    Through R P (n + m.openAt) (m.opening ++ [m.keep]) ρ opening κ ∧ Rounds m R P n it xs κ later τ
  /-- The source is not evaluated again. -/
  once : ∀ κ ∈ trace, n + m.openAt ≤ κ.pc ∧ κ.pc < n + m.code.length
  calls : calls R P (trace.filter (m.outside n)) =
    xs.flatMap (fun x => [asked R it true, given it x]) ++ [asked R it false]
  ends : τ.pc = n + m.code.length

/-! ### A whole loop -/

/-- The iterator is made and kept, and the stack is what it was before the source was evaluated. -/
theorem through_setup {first : List (State V W)} {ρ : State V W} {v : V} (hm : m.Placed P n)
    (hopening : iteratorCode m.source.type = some m.opening)
    (hg : m.Given R P n σ first ρ v it w xs) :
    ∃ setup locals, locals m.iterator = some it ∧
      Through R P (n + m.openAt) (m.opening ++ [m.keep]) ρ setup
        ⟨n + m.headAt, σ.stack, locals, w⟩ := by
  obtain ⟨-, hopenAt, -, -, -, -⟩ := at_pieces hm.at_code
  have hit := R.kind_remaining w it xs hg.yields
  have hv : R.kind v = .ref :=
    (List.cons.inj ((kinds_of_opening hopening).symm.trans hg.kinds)).1.symm
  have hpc := hg.evaluated.pc_end
  have hstack := hg.value
  have hopened := hg.opened
  obtain ⟨pc, stack, locals, w₀⟩ := ρ
  subst hpc hstack
  obtain ⟨making, hmaking⟩ := through_opening hopening hv hit hopened hopenAt.left σ.stack locals
  have hheadAt : n + m.headAt = n + m.openAt + m.opening.length + 1 := by
    rw [headAt]
    omega
  have hkeep : Step R P ⟨n + m.openAt + m.opening.length, it :: σ.stack, locals, w⟩
      ⟨n + m.headAt, σ.stack, store R locals m.iterator it, w⟩ := by
    rw [hheadAt]
    exact step_store hopenAt.right.head hm.iterator_lt (by rw [hit]; rfl)
  exact ⟨_, _, store_self .., hmaking.append (b := [m.keep]) (.single hkeep rfl hheadAt)⟩

theorem iterated {first : List (State V W)} {ρ : State V W} {v : V} (hm : m.Placed P n)
    (hopening : iteratorCode m.source.type = some m.opening)
    (hg : m.Given R P n σ first ρ v it w xs) :
    ∃ trace τ, m.Iterated R P n ρ it xs trace τ ∧ (m.Balanced R P n σ → τ.stack = σ.stack) := by
  obtain ⟨-, hopenAt, -, -, -, -⟩ := at_pieces hm.at_code
  obtain ⟨setup, locals, hkept, hsetup⟩ := through_setup hm hopening hg
  have hsetup_pc : ∀ κ ∈ setup, n + m.openAt ≤ κ.pc ∧ κ.pc < n + m.headAt := fun κ hκ => by
    have hin := hsetup.within hκ
    rw [List.length_append, List.length_singleton, Nat.add_assoc] at hin
    exact hin
  have hbefore : ∀ κ ∈ first ++ setup, Code.Within n m.code κ.pc := by
    rw [List.forall_mem_append]
    refine ⟨fun κ hκ => ?_, fun κ hκ =>
      within_of_setup (by have := hsetup_pc κ hκ; omega) (hsetup_pc κ hκ).2⟩
    have hin := hg.evaluated.within hκ
    exact within_of_setup hin.1 (by rw [headAt, openAt]; omega)
  obtain ⟨later, τ, hrounds, hτ⟩ :=
    exists_rounds hm hg.falls hg.fits (hg.evaluated.run.trans hsetup.run) hbefore hkept hg.yields
  obtain ⟨hend, hwithin⟩ := hrounds.within
  refine ⟨setup ++ later, τ, ⟨hsetup.run.trans hrounds.run, ⟨setup, _, later, rfl, hsetup, hrounds⟩,
    ?_, ?_, hend⟩, fun hbalanced => hτ hbalanced rfl⟩
  · rw [List.forall_mem_append]
    refine ⟨fun κ hκ => ⟨(hsetup_pc κ hκ).1, ?_⟩, fun κ hκ => ⟨?_, (hwithin κ hκ).2⟩⟩
    · exact (hbefore κ (List.mem_append_right _ hκ)).2
    · have := (hwithin κ hκ).1
      rw [headAt] at this
      omega
  · have houtside : setup.filter (m.outside n) = setup := List.filter_eq_self.mpr fun κ hκ => by
      have hlt := (hsetup_pc κ hκ).2
      have hbody : m.bodyAt = m.headAt + m.head.length := rfl
      rw [outside_iff]
      omega
    have hquiet : ∀ i ∈ m.opening ++ [m.keep], asks i = false := by
      rw [List.forall_mem_append, List.forall_mem_singleton]
      exact ⟨asks_opening hopening, rfl⟩
    have hsilent := hsetup.calls_eq_nil hopenAt hquiet
    have hcalls := hrounds.calls_outside hm
    rw [Iteration.calls] at hsilent hcalls ⊢
    rw [List.filter_append, houtside, List.filterMap_append, hsilent, hcalls, List.nil_append]

/-! ### Verified methods -/

/-- The stack at the end of the body is that at the head of the loop. -/
theorem stack_at_back {ret : List Kind} {K : Nat → Option (List Kind)} {st : List V}
    (hm : m.Placed P n) (hK : Typing ret P K) (hempty : K (n + m.headAt) = some [])
    (hσ : σ.pc = n + m.backAt) (hframed : Framed R K st σ) : σ.stack = st := by
  obtain ⟨-, -, hhead, -, hback, -⟩ := at_pieces hm.at_code
  obtain ⟨top, htop, hkinds⟩ := hframed
  rw [hσ] at hkinds
  obtain ⟨κ, hretype, -, hjump⟩ := hK.step _ _ _ hback hkinds
  have hsame : (Code.goto m.start).retype? ret (top.map R.kind) = some (top.map R.kind) :=
    Instr.retype?_of_shape (i := Code.goto m.start) rfl ret _
  have hhome := hjump _ _ rfl _ hhead.head
  rw [hempty, ← hretype, hsame, Option.some.injEq, eq_comm, List.map_eq_nil_iff] at hhome
  rw [htop, hhome, List.nil_append]

/-- Where the verifier finds nothing on the stack before the loop, every body is balanced. -/
theorem balanced {ret : List Kind} {K : Nat → Option (List Kind)} {first : List (State V W)}
    {ρ : State V W} {v : V} (hm : m.Placed P n)
    (hopening : iteratorCode m.source.type = some m.opening)
    (hg : m.Given R P n σ first ρ v it w xs) (hK : Typing ret P K) (hn : K n = some []) :
    m.Balanced R P n σ := by
  rintro β inside ε ⟨-, trace, hrun, -⟩ - hbody
  obtain ⟨setup, locals, -, hsetup⟩ := through_setup hm hopening hg
  have hpc : σ.pc = n := hg.evaluated.start
  have hstart : Framed R K σ.stack σ := ⟨[], rfl, by rw [hpc, hn]; rfl⟩
  have hempty : K (n + m.headAt) = some [] :=
    ((hstart.run hK hg.evaluated.run).run hK hsetup.run).kinds [] rfl
  have hback : ε.pc = n + m.backAt := by rw [hbody.pc_end, backAt, Nat.add_assoc]
  exact stack_at_back hm hK hempty hback ((hstart.run hK hrun).run hK hbody.run)

end LoopCode

/-- The iteration protocol. A loop that was lowered consists of the code of its source, of that
which makes an iterator of it, of its head and of its body. Let the source be evaluated to a value
whose iterator gives the elements `xs`, all of the type of the variable, and let the body be run to
its end whenever it is begun, without advancing that iterator. Then the loop makes one round for
each element, in order, and is left at its end. Outside the body the iterator is asked once for each
element whether there is one, then for the element, and at the end whether there is one again. If
the body leaves the stack as it finds it, so does the loop, and every body does if the loop stands
in a verified method, with nothing on the stack. -/
theorem lowerStmt_iterates {cx : BodyContext} {span : Span} {binding : String} {iterable : Expr}
    {body : Block} {s t : LowerState} {code : Code} {cells : List Cell}
    (h : lowerStmt cx (.forEach span binding iterable body) s = .ok code t)
    (hlaid : Laid cx cells s) (hslots : t.body.nextSlot ≤ 2 ^ 16) :
    ∃ m : LoopCode, m.code = code ∧ m.Of cx binding iterable body s t ∧
      ∀ (P : Code) (n : Nat), P.At n code → P.marks.Nodup →
        ∀ (V W : Type) (R : Runtime V W) (σ : State V W) (first : List (State V W))
          (ρ : State V W) (v it : V) (w : W) (xs : List V), m.Given R P n σ first ρ v it w xs →
            (∃ trace τ, m.Iterated R P n ρ it xs trace τ ∧
              (m.Balanced R P n σ → τ.stack = σ.stack)) ∧
            ∀ ret K, Typing ret P K → K n = some [] → m.Balanced R P n σ := by
  cases stmtRun_of_ok h with
  | forEach hv hit htype hb =>
    rename_i s₁ source opening type b
    let m : LoopCode := ⟨source, opening, s₁.body.nextSlot,
      ⟨(s₁.withSlot .reference).body.nextSlot, type⟩, s₁.body.nextLabel, s₁.body.nextLabel + 1, b⟩
    have hcode : m.code =
        (source.code ++ opening ++ [Code.storeSlot s₁.body.nextSlot .reference]) ++
        [.mark s₁.body.nextLabel] ++ advanceLoop s₁.body.nextSlot
          ⟨(s₁.withSlot .reference).body.nextSlot, type⟩ (s₁.body.nextLabel + 1) ++ b ++
        [Code.goto s₁.body.nextLabel, .mark (s₁.body.nextLabel + 1)] := by
      simp only [m, LoopCode.code, LoopCode.head, LoopCode.keep, List.append_assoc]
    have hof : m.Of cx binding iterable body s t := ⟨⟨s₁, hv, rfl, rfl, rfl, rfl, hb⟩, hit, htype⟩
    refine ⟨m, hcode, hof, ?_⟩
    intro P n hat hP V W R σ first ρ v it w xs hg
    rw [← hcode] at hat
    have hplaced : m.Placed P n := hof.placed hlaid hslots hat hP
    exact ⟨LoopCode.iterated hplaced hit hg, fun ret K hK hn =>
      LoopCode.balanced hplaced hit hg hK hn⟩
  | nothing hn => cases hn

/-! ### A sample -/

/-- Numbers in boxes. The world is what the one iterator there is has left. -/
def boxes : Runtime (Kind × Nat) (List Nat) where
  kind := Prod.fst
  passes _ _ := true
  unbox p v := if p = .int then some (.int, v.2) else none
  truth b := (.int, b.toNat)
  takes op operands := op = .ifeq ∧ operands = [(.int, 0)]
  remaining w v := if v = (.ref, 0) then some (w.map (Prod.mk .ref)) else none
  effect i operands w :=
    match i, operands with
    | .push _, _ => some ([(.ref, 1)], w)
    | .op .pop, _ => some ([], w)
    | .type .checkcast _, _ => some (operands, w)
    | .invoke .invokeinterface target, _ =>
      if target = Library.iteratorHasNext then some ([(.int, (!w.isEmpty).toNat)], w)
      else w.head?.map fun x => ([(.ref, x)], w.tail)
    | .invoke .invokevirtual target, [v] =>
      if target = ⟨"java/lang/Integer", "intValue", "()I"⟩ then some ([(.int, v.2)], w)
      else if target.name = "list" then some ([(.ref, 1)], w)
      else if target.name = "iterator" then some ([(.ref, 0)], w)
      else none
    | _, _ => none
  kind_truth _ := rfl
  takes_truth b := by cases b <;> rfl
  kind_remaining w it xs h := by
    split_ifs at h with hit
    rw [hit]
  kind_unbox p v y h := by
    split_ifs at h with hp
    cases h
    rw [hp]
    rfl
  checkcast _ _ _ := rfl
  unboxed p boxed method v w hboxed hmethod := by
    cases p <;> cases hboxed <;> cases hmethod <;> rfl
  hasNext w it xs h := by
    split_ifs at h
    cases h
    exact ⟨w, by simp; rfl, by simp [*]⟩
  next w it x xs h := by
    split_ifs at h
    cases w with
    | nil => cases h
    | cons y w =>
      cases h
      exact ⟨w, rfl, by simp [*], rfl⟩

/-- `for (x in xs) { .. }` -/
def sampleLoop (body : Stmt) : Stmt :=
  .forEach {} "x" (.ident ⟨.list .int, {}⟩ "xs") ⟨2, [body], {}⟩

/-- A list of numbers, and a block with a number. -/
def loopContext : BodyContext := sampleContext [("xs", .list .int)] [⟨some 1, [("x", .int)]⟩]

/-- `for (x in xs) { "x" }` -/
def samplePieces : LoopCode where
  source := ⟨.list .int, [.slot .aload 0]⟩
  opening := [Code.callVirtual Library.wrapperList, Code.callVirtual Library.listIterator]
  iterator := 1
  element := ⟨2, .int⟩
  start := 0
  done := 1
  body := [.push (.text "x"), .op .pop]

/-- The body of the sample is run to its end from any state. -/
theorem falls_samplePieces (β : State (Kind × Nat) (List Nat))
    (h : β.pc = 0 + samplePieces.bodyAt) :
    samplePieces.Falls boxes (samplePieces.code ++ [Instr.op .vreturn]) 0 (.ref, 0) β := by
  obtain ⟨pc, stack, locals, w⟩ := β
  subst h
  have hpush : Step boxes (samplePieces.code ++ [Instr.op .vreturn]) ⟨13, stack, locals, w⟩
      ⟨14, (.ref, 1) :: stack, locals, w⟩ := ⟨_, rfl, rfl⟩
  have hpop : Step boxes (samplePieces.code ++ [Instr.op .vreturn])
      ⟨14, (.ref, 1) :: stack, locals, w⟩ ⟨15, stack, locals, w⟩ := ⟨_, rfl, rfl⟩
  refine ⟨_, _, .step hpush (.single hpop), rfl, ?_⟩
  simp

/-- The sample, as a method of its own that is called with two elements in the list. -/
theorem lowerStmt_iterates_boxes :
    ∃ t, lowerStmt loopContext (sampleLoop (.expr (.literal ⟨.string, {}⟩ (.text "x"))))
        (sampleState [("xs", .list .int)]) = .ok samplePieces.code t ∧
      ∃ trace τ, samplePieces.Iterated boxes (samplePieces.code ++ [.op .vreturn]) 0
        ⟨1, [(.ref, 1)], fun k => if k = 0 then some (.ref, 1) else none, [7, 8]⟩ (.ref, 0)
        [(.ref, 7), (.ref, 8)] trace τ ∧ τ.stack = [] := by
  have hlowered : ∃ t,
      lowerStmt loopContext (sampleLoop (.expr (.literal ⟨.string, {}⟩ (.text "x"))))
        (sampleState [("xs", .list .int)]) = .ok samplePieces.code t ∧ t.body.nextSlot = 3 ∧
      samplePieces.Of loopContext "x" (.ident ⟨.list .int, {}⟩ "xs")
        ⟨2, [.expr (.literal ⟨.string, {}⟩ (.text "x"))], {}⟩
        (sampleState [("xs", .list .int)]) t :=
    ⟨_, rfl, rfl, ⟨sampleState [("xs", .list .int)], rfl, rfl, rfl, rfl, rfl, rfl⟩, rfl, rfl⟩
  obtain ⟨t, ht, hslots, hpieces⟩ := hlowered
  have hlaid : Laid loopContext [.ref] (sampleState [("xs", .list .int)]) :=
    ⟨rfl, nofun, List.forall_mem_singleton.mpr rfl⟩
  obtain ⟨m, -, hof, hiterates⟩ := lowerStmt_iterates ht hlaid (by omega)
  obtain rfl := hof.unique hpieces
  have hverified : ∃ f, Flow.run (fun _ => []) [] (samplePieces.code ++ [.op .vreturn])
      ⟨some [], []⟩ = some f := ⟨_, rfl⟩
  obtain ⟨f, hf⟩ := hverified
  let locals : Nat → Option (Kind × Nat) := fun k => if k = 0 then some (.ref, 1) else none
  have hload : Step boxes (samplePieces.code ++ [.op .vreturn]) ⟨0, [], locals, [7, 8]⟩
      ⟨1, [(.ref, 1)], locals, [7, 8]⟩ := ⟨_, rfl, rfl⟩
  have hfits : ∀ x ∈ [(Kind.ref, 7), (Kind.ref, 8)],
      (boxes.convert samplePieces.element.type x).isSome = true := by
    decide
  have hgiven : samplePieces.Given boxes (samplePieces.code ++ [.op .vreturn]) 0
      ⟨0, [], locals, [7, 8]⟩ _ ⟨1, [(.ref, 1)], locals, [7, 8]⟩ (.ref, 1) (.ref, 0) [7, 8]
      [(.ref, 7), (.ref, 8)] :=
    ⟨.single hload rfl rfl, rfl, rfl, ⟨(.ref, 1), [7, 8], rfl, rfl, rfl⟩, rfl, hfits,
      fun β h => falls_samplePieces β h.1⟩
  have htyping := Flow.typing_of_run hf
  obtain ⟨⟨trace, τ, hiterated, hstack⟩, hbalanced⟩ :=
    hiterates _ 0 (Code.at_self _).left (by decide) _ _ boxes _ _ _ _ _ _ _ hgiven
  exact ⟨t, ht, trace, τ, hiterated, hstack (hbalanced _ _ htyping htyping.entry)⟩

/-! ### A body that leaves an operand

The entry point has one argument, whatever it declares, and nothing is emitted for a store into
another. -/

def entryFrame : Frame where
  access := .publicStatic
  name := "main"
  descriptor := MethodPlan.mainDescriptor
  args := [⟨0, .array (.object "java/lang/String")⟩]
  returnsVoid := true
  nextSlot := 1

/-- In `main(a, b)`, with a list of numbers. -/
def entryContext : BodyContext :=
  { sampleContext [("a", .string), ("b", .string), ("xs", .list .int)]
    [⟨some 1, [("x", .int)]⟩] with
    frame := entryFrame
    params := [("a", .string), ("b", .string)] }

def entryState : LowerState :=
  ({ body := { nextSlot := 1 } } : LowerState).withLocal 1 "xs" (.list .int)

/-- `b = "x"` -/
def assignSecond : Stmt :=
  .expr (.assign ⟨.string, {}⟩ (.ident ⟨.string, {}⟩ "b") (.literal ⟨.string, {}⟩ (.text "x")))

/-- `for (x in xs) { b = "x" }` -/
def spillPieces : LoopCode where
  source := ⟨.list .int, [.slot .aload 1]⟩
  opening := [Code.callVirtual Library.wrapperList, Code.callVirtual Library.listIterator]
  iterator := 2
  element := ⟨3, .int⟩
  start := 0
  done := 1
  body := [.push (.text "x")]

theorem falls_spillPieces (β : State (Kind × Nat) (List Nat)) (h : β.pc = 0 + spillPieces.bodyAt) :
    spillPieces.Falls boxes (spillPieces.code ++ [Instr.op .vreturn]) 0 (.ref, 0) β := by
  obtain ⟨pc, stack, locals, w⟩ := β
  subst h
  have hpush : Step boxes (spillPieces.code ++ [Instr.op .vreturn]) ⟨13, stack, locals, w⟩
      ⟨14, (.ref, 1) :: stack, locals, w⟩ := ⟨_, rfl, rfl⟩
  refine ⟨_, _, .single hpush, rfl, ?_⟩
  simp

/-- The body of a loop in the entry point can be run to its end and leave an operand. Then the loop
is left with one more operand for each element. -/
theorem lowerStmt_spills :
    Frame.start .publicStatic "main" MethodPlan.mainDescriptor = .ok entryFrame ∧
    ∃ t, lowerStmt entryContext (sampleLoop assignSecond) entryState = .ok spillPieces.code t ∧
      ∃ σ first ρ trace τ, spillPieces.Given boxes (spillPieces.code ++ [.op .vreturn]) 0 σ first ρ
          (.ref, 1) (.ref, 0) [7, 8] [(.ref, 7), (.ref, 8)] ∧
        spillPieces.Iterated boxes (spillPieces.code ++ [.op .vreturn]) 0 ρ (.ref, 0)
          [(.ref, 7), (.ref, 8)] trace τ ∧
        σ.stack = [] ∧ τ.stack = [(.ref, 1), (.ref, 1)] := by
  have hlowered : ∃ t, lowerStmt entryContext (sampleLoop assignSecond) entryState =
        .ok spillPieces.code t ∧
      t.body.nextSlot = 4 ∧ spillPieces.Of entryContext "x" (.ident ⟨.list .int, {}⟩ "xs")
        ⟨2, [assignSecond], {}⟩ entryState t :=
    ⟨_, rfl, rfl, ⟨entryState, rfl, rfl, rfl, rfl, rfl, rfl⟩, rfl, rfl⟩
  obtain ⟨t, ht, hslots, hpieces⟩ := hlowered
  have hlaid : Laid entryContext [.ref, .ref] entryState :=
    ⟨rfl, List.forall_mem_singleton.mpr rfl, List.forall_mem_singleton.mpr rfl⟩
  have hplaced := hpieces.placed hlaid (by omega)
    (Code.at_self (spillPieces.code ++ [.op .vreturn])).left (by decide)
  let locals : Nat → Option (Kind × Nat) := fun k => if k = 1 then some (.ref, 1) else none
  have hload : Step boxes (spillPieces.code ++ [.op .vreturn]) ⟨0, [], locals, [7, 8]⟩
      ⟨1, [(.ref, 1)], locals, [7, 8]⟩ := ⟨_, rfl, rfl⟩
  have hfits : ∀ x ∈ [(Kind.ref, 7), (Kind.ref, 8)],
      (boxes.convert spillPieces.element.type x).isSome = true := by
    decide
  have hgiven : spillPieces.Given boxes (spillPieces.code ++ [.op .vreturn]) 0
      ⟨0, [], locals, [7, 8]⟩ _ ⟨1, [(.ref, 1)], locals, [7, 8]⟩ (.ref, 1) (.ref, 0) [7, 8]
      [(.ref, 7), (.ref, 8)] :=
    ⟨.single hload rfl rfl, rfl, rfl, ⟨(.ref, 1), [7, 8], rfl, rfl, rfl⟩, rfl, hfits,
      fun β h => falls_spillPieces β h.1⟩
  obtain ⟨trace, τ, hiterated, -⟩ := LoopCode.iterated hplaced hpieces.opening hgiven
  -- the machine is deterministic, so that run is the one that can be computed
  have hcomputed : ∃ locals', after boxes (spillPieces.code ++ [.op .vreturn]) 30
      ⟨1, [(.ref, 1)], locals, [7, 8]⟩ =
        some ⟨16, [(.ref, 1), (.ref, 1)], locals', []⟩ := ⟨_, rfl⟩
  obtain ⟨locals', hcomputed⟩ := hcomputed
  obtain ⟨trace', hrun⟩ := run_of_after hcomputed
  have hend : (spillPieces.code ++ [.op .vreturn])[τ.pc]? = some (.op .vreturn) := by
    rw [hiterated.ends]
    rfl
  obtain rfl := hiterated.run.stuck_unique (fun _ _ _ => step_unique) (not_step_of_return hend) hrun
    (not_step_of_return rfl)
  exact ⟨rfl, t, ht, _, _, _, trace, _, hgiven, hiterated, rfl, rfl⟩

end ClassGen.Iteration
