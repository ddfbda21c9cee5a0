import TreeCompiler.Proofs.Selection.Passing
import TreeCompiler.Proofs.Selection.Tiles

/-!
# Calls — how arguments get where a call finds them

Callee and arguments are all in temps before the first argument is passed.  Those that do not go
into registers are stored to the words of the area from the first one on (`execAll_stores`), the
others are moved to their registers (`execAll_moves`), so that the call that is made matches the
call of the tree (`evaluates_callValue`).
-/

namespace TreeCompiler

namespace Selection

open X86

variable {symbol : String} {k : Nat}

/-! ## Callee and arguments -/

theorem evaluates_callee {f : Exp} {x : SelectM Temp}
    (hx : Evaluates k x fun (σ : Scope symbol) w => f.eval σ w) :
    Evaluates k (callee (.x86_64 symbol) f x) fun (σ : Scope symbol) w => f.eval σ w := by
  unfold callee
  split
  · rename_i l
    exact fun S _ => computes_pure (a := Callee.direct l) trivial fun _ _ _ _ => rfl
  · rw [map_eq_pure_bind]
    refine ((evaluates_intoVirtual hx).map (f := Callee.indirect) id (fun _ _ h => h)
      fun _ _ _ => rfl).congr fun σ w => ?_
    exact Option.map_id'.symm

theorem evaluates_nil : Evaluates k (pure [] : SelectM (List Temp)) fun (σ : Scope symbol) w =>
    Exp.evalAll σ [] w :=
  fun _ _ => computes_pure (fun _ h => absurd h List.not_mem_nil) fun _ _ _ _ => rfl

theorem evaluates_cons {e : Exp} {es : List Exp} {x : SelectM Temp} {y : SelectM (List Temp)}
    (hx : Evaluates k x fun (σ : Scope symbol) w => e.eval σ w)
    (hy : Evaluates k y fun (σ : Scope symbol) w => Exp.evalAll σ es w) :
    Evaluates k
      (do
        let t ← intoVirtual (.x86_64 symbol) x
        let ts ← y
        return t :: ts)
      fun (σ : Scope symbol) w => Exp.evalAll σ (e :: es) w := by
  refine ((evaluates_intoVirtual hx).bind₂ (fun _ (e : Word × List Word) w => some (e.1 :: e.2, w))
    hy fun t ts S _ ht hts => ?_).congr fun σ w => ?_
  · exact computes_pure (List.forall_mem_cons.2 ⟨ht, hts⟩) fun _ _ _ _ => rfl
  · rw [Exp.evalAll]
    simp only [Option.map_eq_bind]
    rfl

/-! ## Passing arguments -/

/-- Stored arguments are in the words of the area, and nothing else changes. -/
theorem execAll_stores (σ : Scope symbol) {ts : List Temp} {slot : Nat} {p : Processor}
    (hbase : p.file rsp = σ.file rsp) (hroom : slot + ts.length ≤ σ.words) :
    ∃ m, Operation.execAll σ.symbols symbol (stores (.x86_64 symbol) slot ts) p =
        some { p with world := { p.world with memory := m } } ∧ σ.area.Outside p.world.memory m ∧
      (∀ n < slot, m.load (σ.area.word n) = p.world.memory.load (σ.area.word n)) ∧
      ∀ n t, ts[n]? = some t → m.load (σ.area.word (slot + n)) = p.file t := by
  induction ts generalizing slot p with
  | nil => exact ⟨p.world.memory, rfl, .refl _ _, fun _ _ => rfl, fun n t h => by simp at h⟩
  | cons v rest ih =>
      rw [List.length_cons] at hroom
      have hslot : slot < σ.words := by omega
      have hreach := σ.words_le
      have hfits : isImm32 (slot * 8) = true := isImm32_iff.2 (by omega)
      have hslotAddress : argumentAddress (.x86_64 symbol) slot = .base rsp (slot * 8) :=
        congrArg (Address.base rsp) (wrap64_of_isImm32 hfits)
      have haddress :
          (Address.base rsp (slot * 8)).value σ.symbols symbol p = σ.area.word slot := by
        rw [Address.value, hbase, Area.word, immediate_eq hfits, Int.mul_comm]
        exact congrArg _ (BitVec.ofInt_natCast 64 (8 * slot))
      have hstore : Operation.exec σ.symbols symbol p
          (.store v (argumentAddress (.x86_64 symbol) slot)) =
            some (p.store (σ.area.word slot) (p.file v)) := by
        rw [hslotAddress]
        exact haddress ▸ Operation.exec_store ..
      obtain ⟨m, hexec, houtside, hbelow, hwords⟩ :=
        ih (p := p.store (σ.area.word slot) (p.file v)) hbase
          (show slot + 1 + rest.length ≤ _ by omega)
      refine ⟨m, (Operation.execAll_cons hstore).trans hexec, ?_, ?_, ?_⟩
      · exact ((Area.Outside.refl _ _).store hreach hslot _).trans houtside
      · -- words below the first one are below all that is stored
        intro n hn
        rw [hbelow n (by omega)]
        exact Area.load_store_of_ne hreach hslot (show n < σ.words by omega) (by omega) _
      · intro n t ht
        cases n with
        | zero =>
            -- the later stores are above this word
            obtain rfl : v = t := by simpa using ht
            rw [Nat.add_zero, hbelow slot (Nat.lt_succ_self _)]
            exact Memory.load_store
        | succ n =>
            rw [show slot + (n + 1) = slot + 1 + n by omega]
            exact hwords n t (by simpa using ht)

/-- Moved arguments are in their registers, and nothing else changes. -/
theorem execAll_moves (σ : Scope symbol) {passed : List (Temp × Temp)} {p : Processor}
    (hnodup : (passed.map Prod.snd).Nodup)
    (hsources : ∀ e ∈ passed, e.1 ∉ passed.map Prod.snd) :
    ∃ q, Operation.execAll σ.symbols symbol (moves passed) p = some q ∧ q.world = p.world ∧
      (∀ t, t ∉ passed.map Prod.snd → q.file t = p.file t) ∧
      ∀ e ∈ passed, q.file e.2 = p.file e.1 := by
  induction passed generalizing p with
  | nil => exact ⟨p, rfl, rfl, fun _ _ => rfl, fun _ h => absurd h List.not_mem_nil⟩
  | cons e rest ih =>
      rw [List.map_cons, List.nodup_cons] at hnodup
      have hsources' : ∀ d ∈ e :: rest, d.1 ≠ e.2 ∧ d.1 ∉ rest.map Prod.snd := fun d hd => by
        simpa [not_or] using hsources d hd
      -- no source is an argument register, so the first move leaves the others their values
      obtain ⟨q, hexec, hworld, hkeep, hmoved⟩ := ih (p := p.set e.2 (p.file e.1)) hnodup.2
        fun d hd => (hsources' d (List.mem_cons_of_mem _ hd)).2
      refine ⟨q, (Operation.execAll_cons (Operation.exec_copy ..)).trans hexec, hworld, ?_, ?_⟩
      · intro t ht
        rw [List.map_cons, List.mem_cons, not_or] at ht
        rw [hkeep t ht.2, Processor.file_set_of_ne _ _ ht.1]
      · intro d hd
        rcases List.mem_cons.1 hd with rfl | hd
        · rw [hkeep _ hnodup.1, Processor.file_set_self]
        · rw [hmoved d hd, Processor.file_set_of_ne _ _ (hsources' d (List.mem_cons_of_mem _ hd)).1]

/-! ## Calls -/

/-- The arguments that go into registers, with their registers. -/
def passed (ts : List Temp) : List (Temp × Temp) := ts.zip argumentRegisters

theorem map_fst_passed (ts : List Temp) : (passed ts).map Prod.fst = ts.take 6 := by
  have hlength : argumentRegisters.length = 6 := rfl
  rw [passed, List.zip_eq_zip_take_min, List.map_fst_zip (by simp), List.take_eq_take_iff]
  omega

theorem map_snd_passed (ts : List Temp) :
    (passed ts).map Prod.snd = argumentRegisters.take ts.length := by
  rw [passed, List.zip_eq_zip_take_min, List.map_snd_zip (by simp), List.take_eq_take_iff]
  omega

theorem not_mem_passed {n : Nat} {t : Temp} (h : Lasting n t) (ts : List Temp) :
    t ∉ (passed ts).map Prod.snd := by
  have hscratch : ∀ u ∈ argumentRegisters, u ∈ scratchRegisters := by decide
  intro hmem
  rw [map_snd_passed] at hmem
  exact not_lasting_scratch (hscratch t (List.mem_of_mem_take hmem)) h

/-- A processor that has some arguments where a call finds them, and is otherwise as before. -/
structure Passes (σ : Scope symbol) (n : Nat) (p q : Processor) (arguments : List Word) : Prop where
  keeps : Keeps n p q
  replies : q.world.replies = p.world.replies
  history : q.world.history = p.world.history
  memory : σ.area.Outside p.world.memory q.world.memory
  registers : arguments.take 6 <+: argumentRegisters.map q.file
  area : ∀ i v, arguments[i + 6]? = some v → q.world.memory.load (σ.area.word i) = v

theorem execAll_passing {σ : Scope symbol} {n : Nat} {p : Processor} {ts : List Temp}
    (hts : Result.lasts n ts) (hbase : p.file rsp = σ.file rsp) (hroom : ts.length - 6 ≤ σ.words) :
    ∃ q, Operation.execAll σ.symbols symbol
        (stores (.x86_64 symbol) 0 (ts.drop 6) ++ moves (passed ts)) p = some q ∧
      Passes σ n p q (Result.value σ p ts) := by
  obtain ⟨m, hstores, houtside, -, hloads⟩ :=
    execAll_stores σ hbase (show 0 + (ts.drop 6).length ≤ σ.words by simpa using hroom)
  -- no argument register is a source, so the moves do not get in each other's way
  have hnodup : ((passed ts).map Prod.snd).Nodup :=
    map_snd_passed ts ▸ (List.take_sublist _ _).nodup (by decide)
  obtain ⟨q, hmoves, hworld, hkeep, hmoved⟩ := execAll_moves σ
    (p := { p with world := { p.world with memory := m } }) hnodup
    fun e he => not_mem_passed (.inr (hts e.1 (List.of_mem_zip he).1)) ts
  refine ⟨q, (Operation.execAll_append hstores).trans hmoves,
    fun t ht => hkeep t (not_mem_passed ht ts), by rw [hworld], by rw [hworld], hworld ▸ houtside,
    ?_, ?_⟩
  · have hmap : ((passed ts).map Prod.fst).map p.file = ((passed ts).map Prod.snd).map q.file := by
      rw [List.map_map, List.map_map]
      exact List.map_congr_left fun e he => (hmoved e he).symm
    change (ts.map p.file).take 6 <+: _
    rw [← List.map_take, ← map_fst_passed, hmap, map_snd_passed]
    exact (List.take_prefix _ _).map _
  · intro i v hv
    change (ts.map p.file)[i + 6]? = some v at hv
    rw [List.getElem?_map] at hv
    obtain ⟨t, ht, rfl⟩ := Option.map_eq_some_iff.1 hv
    rw [hworld, ← Nat.zero_add i]
    exact hloads i t (by rw [List.getElem?_drop, Nat.add_comm]; exact ht)

/-- Pass arguments, call and copy the result. -/
def passAndCall (symbol : String) (f : Callee) (ts : List Temp) : SelectM Temp := do
  storeArguments (.x86_64 symbol) 0 (ts.drop 6)
  reserveOutgoing (ts.length - 6)
  moveArguments (passed ts)
  emit (.call f ((passed ts).map Prod.snd))
  let dst ← fresh
  emit (.copy dst rax)
  return dst

theorem callValue_eq (function : SelectM Callee) (arguments : SelectM (List Temp)) :
    callValue (.x86_64 symbol) (call (.x86_64 symbol) function arguments) =
      function >>= fun f => arguments >>= passAndCall symbol f := by
  simp only [callValue, call, bind_assoc]
  rfl

theorem run_passAndCall (f : Callee) (ts : List Temp) (S : State) :
    (passAndCall symbol f ts).run.run S = (.ok ⟨S.namer.nextTemp⟩,
      { namer := S.namer.freshTemp.2
        operations := ((S.operations ++ (stores (.x86_64 symbol) 0 (ts.drop 6)).toArray ++
          (moves (passed ts)).toArray).push (.call f ((passed ts).map Prod.snd))).push
            (.copy ⟨S.namer.nextTemp⟩ rax)
        memoryArguments := max S.memoryArguments (ts.length - 6) }) := by
  refine (run_bind_ok (run_storeArguments ..)).trans ?_
  refine (run_bind_ok rfl).trans ?_
  exact run_bind_ok (run_moveArguments ..)

theorem exec_call {σ : Scope symbol} {p : Processor} (f : Callee) (registers : List Temp) :
    Operation.exec σ.symbols symbol p (.call f registers) = some (p.call (Result.value σ p f)) := by
  cases f <;> rfl

/-- With its arguments passed a call matches the call of the tree. -/
theorem Agrees.call {σ : Scope symbol} {n : Nat} {p q : Processor} {w : World}
    {arguments : List Word} (h : Agrees k σ p w) (hpasses : Passes σ n p q arguments) (hle : k ≤ n)
    (callee : Word) : Agrees k σ (q.call callee) (w.call callee arguments) where
  file t ht := (hpasses.keeps.call t (ht.mono hle)).trans (h.file t ht)
  replies := by
    simp only [Processor.call, World.call, hpasses.replies, h.replies]
  memory := by
    simp only [Processor.call, World.call, hpasses.replies, h.replies]
    exact .refl _ _
  history := by
    simp only [Processor.call, World.call, hpasses.history]
    exact List.rel_append h.history
      (.cons (.call hpasses.registers hpasses.area (h.memory.trans hpasses.memory)) .nil)

theorem computes_passAndCall {S : State} {f : Callee} {ts : List Temp}
    (hk : Temp.firstVirtual ≤ k) (hS : k ≤ S.namer.nextTemp)
    (hf : Result.lasts S.namer.nextTemp f) (hts : Result.lasts S.namer.nextTemp ts) :
    Computes k S (fun (σ : Scope symbol) p => (Result.value σ p f, Result.value σ p ts))
      (passAndCall symbol f ts) fun _ e w => some ((w.replies 0).value, w.call e.1 e.2) := by
  refine ⟨⟨S.namer.nextTemp⟩, _, stores (.x86_64 symbol) 0 (ts.drop 6) ++ moves (passed ts) ++
    [.call f ((passed ts).map Prod.snd), .copy ⟨S.namer.nextTemp⟩ rax], run_passAndCall f ts S,
    ⟨by simp, Nat.le_succ _, Nat.le_max_left _ _⟩, virtual_fresh (hk.trans hS), ?_⟩
  intro σ p w v w' hwords hagrees heval
  obtain ⟨rfl, rfl⟩ := Prod.mk.inj (Option.some.inj heval)
  obtain ⟨q, hpassing, hpasses⟩ := execAll_passing hts (hagrees.file rsp (.inl rfl))
    ((Nat.le_max_right _ _).trans hwords)
  have hcall : Operation.exec σ.symbols symbol q (.call f ((passed ts).map Prod.snd)) =
      some (q.call (Result.value σ p f)) := by
    rw [exec_call, Result.value_eq hf hpasses.keeps]
  have hfresh := not_lasting_fresh (hk.trans hS)
  refine ⟨_, (Operation.execAll_append hpassing).trans ((Operation.execAll_cons hcall).trans
    ((Operation.execAll_singleton _).trans (Operation.exec_copy ..))),
    hpasses.keeps.call.set hfresh,
    (hagrees.call hpasses hS _).of_keeps ((Keeps.refl _ _).set hfresh) hS rfl, ?_⟩
  refine (Processor.file_set_self ..).trans ?_
  change (q.world.replies 0).value = _
  rw [hpasses.replies, hagrees.replies]

/-- The value of a call is what the call of the tree comes back with. -/
theorem evaluates_callValue {function : SelectM Callee} {arguments : SelectM (List Temp)}
    {evf : Scope symbol → World → Option (Word × World)}
    {evargs : Scope symbol → World → Option (List Word × World)} (hk : Temp.firstVirtual ≤ k)
    (hf : Evaluates k function evf) (hargs : Evaluates k arguments evargs) :
    Evaluates k (callValue (.x86_64 symbol) (call (.x86_64 symbol) function arguments)) fun σ w =>
      (evf σ w).bind fun a => (evargs σ a.2).bind fun b =>
        some ((b.2.replies 0).value, b.2.call a.1 b.1) := by
  rw [callValue_eq]
  exact hf.bind₂ _ hargs fun f ts S hS hflasts htslasts =>
    computes_passAndCall hk hS hflasts htslasts

end Selection

end TreeCompiler
