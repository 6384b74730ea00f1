import ObjectMachine.Proofs.Scopes.Instructions

/-!
# ObjectMachine.Proofs.Scopes.Constants

Most objects never change, and so the constants of a program stay what its units say.

* `Session.InLanguage` — the steps in which the embedding program changes no contents by hand.
* `Session.InLanguage.moves` — they change objects in the few ways of `Payload.Changes`.
* `Vm.Loaded` — all code has the constants of its unit.
* `Vm.Loaded.step`, `Session.loaded` — every step and every run keep it so, unless the embedding
  program makes code by hand that has other constants.
* `Session.constants_kept` — what the two come to.
-/

namespace ObjectMachine

open ObjectMachine.Action

/-! ## Objects -/

/-- The steps of a program: instructions, calls of anything but the hook that sets a slot of an
object, copies that arrive from other tasks, and collections. -/
inductive Session.InLanguage : Session → Session → Prop where
  | step {m : Machine} : ¬ m.SetsSlot → InLanguage (.active m) (.ofOutcome m.step)
  | answer {m : Machine} {request : Request} (a : Machine.Answer) : m.mode = .waiting request →
      InLanguage (.active m) (.ofOutcome (m.resume a))
  | collectWithin {m : Machine} : m.AtSafePoint → InLanguage (.active m) (.collecting m)
  | begin {vm : Vm} (entry : Entry) : (∀ r ∈ entry.refs, vm.heap.contains r = true) →
      InLanguage (.idle vm) (.ofOutcome (entry.begin vm))
  | unpack {vm : Vm} (p : Packed) :
      InLanguage (.idle vm) (.ofResult ((Operation.unpack p).run [] vm))
  | collect {vm : Vm} : InLanguage (.idle vm) (.ofResult (Vm.collect vm))

theorem Session.InLanguage.moves {s t : Session} (hlive : s.Live) (h : s.InLanguage t) :
    s.vm.Moves (Payload.Changes True) t.vm := by
  have hvm := hlive.vm_live
  cases h with
  | step hslot => exact Machine.step_moves (fun _ _ hpq => hpq) hvm fun hsets => absurd hsets hslot
  | answer a hmode =>
    exact .of_proceeds hvm
      (continueWith_adds hvm.heap.freeList fun _ vm => .refl vm).weaken.toProceeds
  | @collectWithin m hsafe => exact collecting_moves hvm
  | begin entry _ => exact begin_moves hvm entry
  | unpack p =>
    refine operation_moves hvm (fun _ hc => ?_) id []
    cases hc
  | collect => exact collect_moves hvm

/-! ## Loaded code -/

/-- All code is loaded code: its constants are what those of its unit stand for. -/
structure Vm.Loaded (v : Vm) : Prop where
  code : ∀ r c, v.heap.payload r = .ok (.code c) → v.heap.Loads c.unit r
  nil : v.heap.payload (nilRef v.heap.id) = .ok .nil

/-- Contents that are not code, or code with the constants of its unit. -/
def Vm.Faithful (v : Vm) (p : Payload) : Prop :=
  ∀ c, p = .code c → v.heap.DenoteAll c.unit.consts c.consts.toList

theorem Code.mem_refs {c : Code} {r : Ref} (h : r ∈ c.consts.toList) :
    r ∈ (Payload.code c).refs := by
  simpa [Payload.refs, Payload.markFn?, MarkFn.targets] using h

namespace Vm.Loaded

variable {v u v' : Vm}

/-- The collector takes no constant of code that it leaves. -/
theorem swept (h : v.Loaded) (hs : v.Swept u) : u.Loaded := by
  have hkeeps : v.heap.Preserves (fun r => u.heap.contains r = true) u.heap := by
    refine ⟨hs.remains.id, fun r p hr _ hp => hs.remains.payload hp hr, fun r c hr hc x hx => ?_⟩
    exact hs.sound.closed.refs_live (hs.remains.payload hc hr) (Code.mem_refs hx)
  refine ⟨fun r c hc => ?_, ?_⟩
  · obtain ⟨k, hk⟩ := Heap.payload_eq_ok_iff.mp hc
    have hold := Heap.payload_eq_ok_iff.mpr ⟨k, hs.remains.get r _ hk⟩
    exact Heap.Loads.keep hkeeps c.unit (Heap.contains_of_payload hc) (h.code r c hold)
  · have hnil := hs.sound.permanent_live (r := nilRef u.heap.id) (by simp [Heap.permanentRoots])
    rw [hs.remains.id] at hnil ⊢
    exact hs.remains.payload h.nil hnil

theorem proceeds {R : Payload → Payload → Prop} [Gentle R] (h : v.Loaded)
    (hp : v.Proceeds R v') : v'.Loaded := by
  refine ⟨fun r c hc => ?_, ?_⟩
  · cases hr : v.heap.contains r with
    | false => exact hp.loads r c hr hc
    | true => exact hp.evolves.preserves.loads (h.code r c (hp.evolves.code_back hr hc))
  · rw [hp.heap.id]
    exact hp.evolves.payload_fixed trivial h.nil

theorem moves {R : Payload → Payload → Prop} [Gentle R] (h : v.Loaded) (hm : v.Moves R v') :
    v'.Loaded := by
  obtain ⟨u, hswept, -, hp⟩ := hm
  exact (h.swept hswept).proceeds hp

/-- An object made by hand. -/
theorem place (h : v.Loaded) (hf : v.heap.FreeList) (k : Ref) {p : Payload} (hp : v.Faithful p) :
    Vm.Loaded { v with heap := (v.heap.place ⟨k, p⟩).2 } := by
  have hevolves : v.heap.Evolves noVar (v.heap.place ⟨k, p⟩).2 :=
    Heap.Turns.place (Heap.Evolves.refl hf) _
  refine ⟨fun r c hc => ?_, ?_⟩
  · rcases Heap.payload_place_cases hf hc with ⟨-, heq⟩ | hold
    · exact Heap.loads_iff.mpr ⟨c.consts, hc, hevolves.preserves.denoteAll (hp c heq.symm)⟩
    · exact hevolves.preserves.loads (h.code r c hold)
  · exact hevolves.id ▸ hevolves.payload_fixed trivial h.nil

/-- A module gets a name by hand. -/
theorem addLocal (h : v.Loaded) (r : Ref) (name : String) (x : Ref) :
    Vm.Loaded { v with heap := v.heap.update r (Payload.addLocal name x) } := by
  have hfixed : ∀ p : Payload, p.Fixed → p.addLocal name x = p := fun p hp =>
    Payload.addLocal_eq (.inl hp)
  have hkeeps := v.heap.preserves_update r hfixed
  refine ⟨fun s c hc => hkeeps.loads (h.code s c ?_), hkeeps.payload _ _ trivial trivial h.nil⟩
  obtain ⟨p, hp, rfl | hcode⟩ := Heap.payload_update_cases hc
  · exact hp
  · rw [Payload.addLocal_eq (.inr (hcode ▸ trivial))] at hcode
    exact hcode ▸ hp

end Vm.Loaded

/-! ## Steps and runs -/

namespace Vm.Loaded

variable {vm : Vm}

/-- The code of a method is loaded, whatever the method is given for a module. -/
theorem methodOperation (h : vm.Loaded) (hf : vm.heap.FreeList) (unit : CodeUnit)
    (operands : List Ref) :
    (Session.ofResult ((Operation.method unit).run operands vm)).vm.Loaded := by
  have hmake : ∀ module,
      (final (Operands.single (Vm.newBytecodeMethod unit module) vm)).Loaded := by
    intro module
    have hload := Acts.works (R := Eq) (a := Vm.loadCode unit) vm hf
    unfold Operands.single Vm.newBytecodeMethod
    rw [bind_assoc]
    cases hrun : Vm.loadCode unit vm with
    | error e v₁ =>
      rw [hrun] at hload
      rw [bind_error hrun]
      exact h.proceeds hload.toProceeds
    | ok code v₁ =>
      rw [hrun] at hload
      have hnew := Vm.new_eq v₁ .method (.method ⟨unit.name, .bytecode code module, none⟩)
      rw [bind_ok hrun, Vm.newMethod, bind_ok hnew]
      exact (h.proceeds hload.toProceeds).place hload.heap.freeList _ (by rintro _ ⟨⟩)
  rw [Session.ofResult_vm]
  rcases operands with _ | ⟨r, _ | ⟨s, rest⟩⟩
  · exact hmake none
  · exact hmake (some r)
  · exact h

theorem addLocalOperation (h : vm.Loaded) (name : String) (operands : List Ref) :
    (Session.ofResult ((Operation.addLocal name).run operands vm)).vm.Loaded := by
  rcases operands with _ | ⟨r, _ | ⟨x, _ | ⟨z, rest⟩⟩⟩
  · exact h
  · exact h
  · exact h.addLocal r name x
  · exact h

theorem operation (h : vm.Loaded) (hlive : vm.Live) (c : Operation) (operands : List Ref) :
    (Session.ofResult (c.run operands vm)).vm.Loaded := by
  by_cases hmethod : ∃ unit, c = .method unit
  · obtain ⟨unit, rfl⟩ := hmethod
    exact h.methodOperation hlive.heap.freeList unit operands
  · by_cases hlocal : ∃ name, c = .addLocal name
    · obtain ⟨name, rfl⟩ := hlocal
      exact h.addLocalOperation name operands
    · exact h.moves (Session.operation_becomes hlive (fun unit hc => hmethod ⟨unit, hc⟩)
        (fun name hc => hlocal ⟨name, hc⟩) operands)

theorem alloc (h : vm.Loaded) (hf : vm.heap.FreeList) (k : Ref) {p : Payload}
    (hp : vm.Faithful p) : (Session.ofResult (Vm.alloc k p vm)).vm.Loaded := by
  rw [Session.ofResult_vm]
  unfold Vm.alloc
  cases vm.heap.checkOwn k with
  | error e => exact h
  | ok _ => exact h.place hf k hp

theorem step {accepts : Vm → Operation → List Ref → Prop} {s t : Session} (h : s.vm.Loaded)
    (hlive : s.Live) (hst : s.StepBy Vm.Faithful accepts t) : t.vm.Loaded := by
  have hvm := hlive.vm_live
  cases hst with
  | operation c _ _ => exact h.operation hvm c _
  | @alloc vm cls p _ hp => exact h.alloc hvm.heap.freeList cls hp
  | @roots vm roots temps _ =>
    have hkeeps : vm.heap.Preserves (fun _ => True) { vm.heap with roots := roots } :=
      ⟨rfl, fun _ _ _ _ hp => hp, fun _ _ _ _ _ _ => trivial⟩
    exact ⟨fun r c hc => hkeeps.loads (h.code r c hc), h.nil⟩
  | collect => exact h.moves (Session.collect_moves hvm)
  | begin entry _ => exact h.moves (Session.begin_moves hvm entry)
  | active hst => exact h.moves (hst.active_becomes hvm)

/-- There is no code in a new task. -/
theorem boot (registry : Registry) (config : Config) (heap : Nat) (task : TaskId) :
    (Vm.boot registry config heap task).Loaded := by
  have hbare : (Vm.bare registry config heap task).Loaded := by
    refine ⟨fun r c hc => ?_, ?_⟩
    · obtain ⟨d, heq⟩ | heq | ⟨b, heq⟩ := Vm.bare_payload hc <;> cases heq
    · show (Heap.boot heap config).payload (nilRef (Heap.boot heap config).id) = _
      rw [Heap.boot_id]
      exact Heap.payload_eq_ok_iff.mpr ⟨_, Heap.get_boot_nil⟩
  exact hbare.proceeds (Vm.boot_proceeds registry config heap task)

end Vm.Loaded

/-- In every run in which the embedding program makes no code by hand with other constants than its
unit has. -/
theorem Session.loaded {accepts : Vm → Operation → List Ref → Prop} {registry : Registry}
    {config : Config} {heap : Nat} {task : TaskId} {s : Session}
    (hs : (boot registry config heap task).ReachesBy Vm.Faithful accepts s) :
    s.Orderly ∧ s.vm.Loaded :=
  hs.invariant (.boot registry config heap task) fun _ _ hlive hst h => h.step hlive hst

/-! ## Constants -/

/-- A step at the instruction pushes what the constant stands for. -/
theorem Machine.Stands.pushes {m : Machine} {f : ActiveFrame} {i : Instr} {code : Code}
    {c : Constant} (hs : m.Stands f .pushConst i) (hlive : m.vm.Live) (hloaded : m.vm.Loaded)
    (hcode : m.vm.heap.payload f.code = .ok (.code code)) (hunit : code.unit = f.unit)
    (hc : f.unit.consts[i.arg1.toNat]? = some c) :
    ∃ m' r, m.step = .next m' ∧ m'.mode = .running ∧ m'.vm.stack.back? = some r ∧
      m'.vm.heap.Denotes c r := by
  obtain ⟨u, floor, outer, hp, hstep⟩ := hs.step_eq hlive
  have hcode' := hp.remains.payload hcode (hp.frame_live f.code (by simp))
  obtain ⟨refs, hrefs, hall⟩ := Heap.loads_iff.mp ((hloaded.moves hp.moves).code f.code code hcode')
  have heq : Payload.code code = .code ⟨code.unit, refs⟩ :=
    Except.ok.inj (hcode'.symm.trans hrefs)
  obtain rfl : code.consts = refs := congrArg Code.consts (Payload.code.inj heq)
  obtain ⟨r, hr, hdenotes⟩ := hall.getElem? (hunit ▸ hc)
  have hconstant : Vm.constant i.arg1 u = .ok r u := by
    unfold Vm.constant
    rw [bind_ok (Vm.top_eq_ok.mpr ⟨hp.frame, rfl⟩), bind_ok (Vm.payload_eq_ok.mpr ⟨hcode', rfl⟩)]
    have hfound : code.consts[i.arg1.toNat]? = some r := by
      rw [← Array.getElem?_toList]
      exact hr
    simp only [hfound]
    rfl
  have hrun : (Vm.execute .pushConst i >>= Vm.goOn floor) u =
      .ok .next { u with stack := u.stack.push r } := by
    have heq : (Vm.execute .pushConst i >>= Vm.goOn floor) =
        Vm.constant i.arg1 >>= fun r => Vm.push r >>= fun _ => pure .next := by
      unfold Vm.execute
      simp only [bind_assoc]
      rfl
    rw [heq, bind_ok hconstant]
    rfl
  refine ⟨_, r, hstep.trans (continueWith_ok hrun), rfl, ?_, hdenotes⟩
  simp [afterFlow]

/-- The unit that a constant is, if it is one. -/
def Constant.unit? : Constant → Option CodeUnit
  | .code unit => some unit
  | _ => none

namespace Session

/-- What does not change. In every run, whatever the programs are, wherever the collector runs and
whatever the embedding program has done:

* in a step of a program, an object that is there before and after it keeps its class, and its
  payload changes in one of the ways of `Payload.Changes`: an item is put at the end of an array or
  taken from there, a hash gets another value or another entry at its end, a module gains a name, a
  class gets a method, a variable gets a value. Every other payload stays as it is;
* so code has the constants of its unit, and so on for nested units, and wherever a constant is
  pushed, what is pushed is what the constant of the unit stands for, unless the embedding program
  has made code by hand that has other constants than its unit. What stands for nil is nil. -/
theorem constants_kept (registry : Registry) (config : Config) (heap : Nat) (task : TaskId) :
    (∀ s t r o, (boot registry config heap task).Reaches s → s.InLanguage t →
      s.vm.heap.get r = .ok o → t.vm.heap.contains r = true →
      ∃ p, t.vm.heap.get r = .ok ⟨o.cls, p⟩ ∧ o.payload.Changes True p ∧
        (o.payload.Fixed ∨ (∃ slots, o.payload = .object slots) → p = o.payload)) ∧
    ∀ s, (boot registry config heap task).ReachesBy Vm.Faithful (fun _ _ _ => True) s →
      s.vm.heap.payload (nilRef s.vm.heap.id) = .ok .nil ∧
      (∀ r code, s.vm.heap.payload r = .ok (.code code) → s.vm.heap.Loads code.unit r) ∧
      ∀ m f i c, s = .active m → m.Stands f .pushConst i →
        f.unit.consts[i.arg1.toNat]? = some c →
        ∃ m' r, m.step = .next m' ∧ m'.mode = .running ∧ m'.vm.stack.back? = some r ∧
          m'.vm.heap.Denotes c r := by
  refine ⟨fun s t r o hs hst ho hr => ?_, fun s hs => ?_⟩
  · have hlive := (boot_live registry config heap task).reaches hs
    obtain ⟨p, hp, hchanges⟩ := (hst.moves hlive).unfolds.get ho hr
    exact ⟨p, hp, hchanges, hchanges.eq_of_fixed⟩
  · obtain ⟨horderly, hloaded⟩ := loaded hs
    refine ⟨hloaded.nil, hloaded.code, ?_⟩
    rintro m f i c rfl hstands hc
    obtain ⟨-, -, -, hcode, hunit, -, -, -⟩ :=
      horderly.framed trivial f (Array.mem_of_back? hstands.frame)
    exact hstands.pushes (Machine.Live.vm horderly.live) hloaded hcode hunit hc

/-- A unit that pushes its constant, which is another unit with constants. -/
def nesting : CodeUnit where
  code := #[.args .pushConst 0 0 0, .simple .ret]
  consts := [.code { consts := [.int 7, .str "a", .nil] }]

/-- The nested unit is pushed with its three constants. The code that runs is the same before and
after. -/
theorem constants_kept_nested : ∃ m m' f r unit o,
    (boot {} {} 0 ⟨0, 0⟩).ReachesBy Vm.Faithful (fun _ _ _ => True) (.active m) ∧
      m.step = .next m' ∧ m'.vm.stack.back? = some r ∧ unit.consts.length = 3 ∧
      m'.vm.heap.Loads unit r ∧ m.vm.frames.back? = some f ∧ m.vm.heap.get f.code = .ok o ∧
      m'.vm.heap.get f.code = .ok o := by
  have hrun : (callOf? nesting 0).any (fun m =>
      m.standsAt .pushConst && m.vm.frames.back?.any fun f =>
        (f.unit.code[f.ip]?.any fun i => f.unit.consts[i.arg1.toNat]?.any fun c =>
          c.unit?.any fun unit => unit.consts.length == 3) &&
        (ofOutcome m.step).vm.heap.contains f.code) = true := by
    decide +kernel
  obtain ⟨m, hcall, hrun⟩ := (Option.any_eq_true _ _).mp hrun
  simp only [Bool.and_eq_true, Option.any_eq_true] at hrun
  obtain ⟨hat, f, hback, ⟨i, hi, c, hc, unit, hunit, hlength⟩, hkept⟩ := hrun
  obtain rfl : c = .code unit := by
    cases c with
    | code _ => exact congrArg _ (Option.some.inj hunit)
    | _ => cases hunit
  have hreach : (boot {} {} 0 ⟨0, 0⟩).ReachesBy Vm.Faithful (fun _ _ _ => True) (.active m) :=
    callOf?_reaches hcall trivial
  obtain ⟨g, j, hstands⟩ := Machine.standsAt_iff.mp hat
  obtain rfl := Option.some.inj (hback.symm.trans hstands.frame)
  obtain rfl := Option.some.inj (hi.symm.trans hstands.instr)
  obtain ⟨hobjects, hconstants⟩ := constants_kept {} {} 0 ⟨0, 0⟩
  obtain ⟨m', r, hstep, -, hpushed, hdenotes⟩ :=
    (hconstants _ hreach).2.2 m f i _ rfl hstands hc
  obtain ⟨-, -, -, hcode, -, -, -, -⟩ :=
    (orderly {} {} 0 ⟨0, 0⟩ hreach.reaches).framed trivial f (Array.mem_of_back? hback)
  obtain ⟨k, hget⟩ := Heap.payload_eq_ok_iff.mp hcode
  have hlanguage : (active m).InLanguage (.ofOutcome m.step) := by
    refine .step ?_
    rintro ⟨callee, args, b, hmode, -⟩
    rw [hstands.mode] at hmode
    cases hmode
  rw [hstep] at hkept hlanguage
  obtain ⟨p, hp, -, hsame⟩ := hobjects _ _ f.code _ hreach.reaches hlanguage hget hkept
  rw [hsame (.inl trivial)] at hp
  simp only [Heap.Denotes] at hdenotes
  exact ⟨m, m', f, r, unit, _, hreach, hstep, hpushed, beq_iff_eq.mp hlength, hdenotes, hback, hget,
    hp⟩

end Session

end ObjectMachine
