import ObjectMachine.Proofs.Classes.Instances
import ObjectMachine.Proofs.Machine.Depth
import ObjectMachine.Proofs.Machine.Sites
import ObjectMachine.Proofs.Machine.Unwinding

/-!
# ObjectMachine.Proofs.Host.Panics

What an embedding program gets when a call fails.

* `Session.Rests`, `Session.Seated` — the calls of a task begin without frames, and all frames of a
  call but a running one wait.
* `Session.seated` — so it is in every run.
* `Machine.Fails` — a machine fails.
* `Session.panic_propagates` — the call ends with the value of the failure, which tells where all
  its frames were.
-/

namespace ObjectMachine

open ObjectMachine.Action

/-! ## Sessions -/

namespace Firm

variable {α : Type}

instance zero (a : Action (List Ref)) [Firm a] (operands : List Ref) :
    Firm (Operands.zero a operands) := by
  unfold Operands.zero
  split <;> infer_instance

instance one (f : Ref → Action (List Ref)) [∀ x, Firm (f x)] (operands : List Ref) :
    Firm (Operands.one f operands) := by
  unfold Operands.one
  split <;> infer_instance

instance option (f : Option Ref → Action (List Ref)) [∀ x, Firm (f x)] (operands : List Ref) :
    Firm (Operands.option f operands) := by
  unfold Operands.option
  split <;> infer_instance

instance two (f : Ref → Ref → Action (List Ref)) [∀ x y, Firm (f x y)] (operands : List Ref) :
    Firm (Operands.two f operands) := by
  unfold Operands.two
  split <;> infer_instance

instance three (f : Ref → Ref → Ref → Action (List Ref)) [∀ x y z, Firm (f x y z)]
    (operands : List Ref) : Firm (Operands.three f operands) := by
  unfold Operands.three
  split <;> infer_instance

instance first (f : Ref → List Ref → Action (List Ref)) [∀ x xs, Firm (f x xs)]
    (operands : List Ref) : Firm (Operands.first f operands) := by
  unfold Operands.first
  split <;> infer_instance

instance single (a : Action Ref) [Firm a] : Firm (Operands.single a) := by
  unfold Operands.single; infer_instance

instance silent (a : Action α) [Firm a] : Firm (Operands.silent a) := by
  unfold Operands.silent; infer_instance

instance contentsOf (r : Ref) : Firm (Operation.contentsOf r) := by
  unfold Operation.contentsOf; infer_instance

instance methodNamed (cls : Ref) (name : String) : Firm (Operation.methodNamed cls name) := by
  unfold Operation.methodNamed; infer_instance

instance named (table : Vm → NameMap Ref) (name : String) : Firm (Operation.named table name) :=
  ⟨fun _ => rfl⟩

instance takeOutput : Firm Vm.takeOutput := ⟨fun _ => rfl⟩

instance pushTemp (r : Ref) : Firm (Vm.pushTemp r) := ⟨fun _ => rfl⟩

instance popTemp : Firm Vm.popTemp := ⟨fun _ => rfl⟩

instance addRoot (r : Ref) : Firm (Vm.addRoot r) := by
  constructor
  intro vm
  unfold Vm.addRoot
  cases vm.heap.addRoot r <;> rfl

instance removeRoot (r : Ref) : Firm (Vm.removeRoot r) := ⟨fun _ => rfl⟩

instance operation (c : Operation) (operands : List Ref) : Firm (c.run operands) := by
  cases c <;> unfold Operation.run <;> infer_instance

end Firm

/-- The state of a session can be led back to `c₀`, and its frames wait. -/
def Session.Rests (c₀ : Context) : Session → Prop
  | .idle vm => vm.context = c₀
  | .active m => m.Balanced c₀ ∧ m.Paused
  | .ended _ _ => True

/-- The calls of a session began without frames, and the task has the settings `config`. -/
def Session.Seated (config : Config) : Session → Prop
  | .idle vm => vm.frames = #[] ∧ vm.config = config
  | .active m => ∃ c₀ : Context,
    c₀.frames = #[] ∧ c₀.config = config ∧ (Session.active m).Rests c₀
  | .ended _ _ => True

namespace Session

section Rests

variable {c₀ : Context} {m : Machine} {t : Session}

theorem Rests.of_outcome {o : Outcome} (hb : o.Balanced c₀) (hp : o.Paused) :
    (ofOutcome o).Rests c₀ := by
  cases o with
  | next m => exact ⟨hb, hp⟩
  | blocked m request => exact ⟨hb, hp⟩
  | done vm result => exact hb
  | fatal vm f => trivial
  | crashed vm => trivial

/-- Every step of a call keeps that. -/
theorem Rests.step (h : (active m).Rests c₀) (hst : (active m).Step t) : t.Rests c₀ := by
  obtain ⟨hb, hp⟩ := h
  cases hst with
  | step => exact .of_outcome hb.step (hp.step hb)
  | answer a hmode => exact .of_outcome (hb.resume a) (hp.resume hmode a)
  | collectWithin _ =>
    have hctx := Steady.context (a := Vm.collect) m.vm
    unfold collecting
    cases hrun : Vm.collect m.vm with
    | error e u => trivial
    | ok n u =>
      rw [hrun] at hctx
      have hctx : u.context = m.vm.context := hctx
      exact ⟨⟨hctx ▸ hb.konts, hb.running⟩, hp.of_frames (congrArg Context.frames hctx)⟩

/-- So does the beginning of a call. -/
theorem Rests.begin {vm : Vm} (h : AllCalling vm.frames) (entry : Entry) :
    (ofOutcome (entry.begin vm)).Rests vm.context := by
  refine .of_outcome (entry.begin_balanced vm) ?_
  cases entry with
  | bytecode method args =>
    refine Machine.continueWith_paused (fun heights u hrun => ?_) fun e u hrun => ?_
    · obtain ⟨f, hframes⟩ := Vm.enterLoop_frames hrun
      show AllCalling u.frames.pop
      exact hframes ▸ h.pop_push f
    · rw [← Vm.enterLoop_error hrun] at h
      exact .of_waiting h.waiting _ e
  | _ => exact h

end Rests

section Seated

variable {config : Config} {vm : Vm} {s t : Session}

theorem Rests.seated {c₀ : Context} (hframes : c₀.frames = #[]) (hconfig : c₀.config = config)
    (h : s.Rests c₀) : s.Seated config := by
  cases s with
  | idle vm =>
    obtain rfl : vm.context = c₀ := h
    exact ⟨hframes, hconfig⟩
  | active m => exact ⟨c₀, hframes, hconfig, h⟩
  | ended vm stop => trivial

theorem Seated.ofResult {α : Type} (a : Action α) [ha : Firm a] (h : (idle vm).Seated config) :
    (Session.ofResult (a vm)).Seated config := by
  have hfooting := ha.footing vm
  have hend : (idle (final (a vm))).Seated config :=
    ⟨(congrArg Vm.Footing.frames hfooting).trans h.1,
      (congrArg Vm.Footing.config hfooting).trans h.2⟩
  cases hrun : a vm with
  | ok x u =>
    rw [hrun] at hend
    exact hend
  | error e u =>
    rw [hrun] at hend
    cases e with
    | raised e => exact hend
    | fatal f => trivial
    | crashed => trivial

theorem Seated.step (h : s.Seated config) (hst : s.Step t) : t.Seated config := by
  cases hst with
  | operation c _ => exact h.ofResult _
  | alloc _ => exact h.ofResult _
  | pushTemp _ => exact h.ofResult _
  | popTemp => exact h.ofResult _
  | addRoot _ => exact h.ofResult _
  | removeRoot _ => exact h.ofResult _
  | collect => exact h.ofResult _
  | @begin vm entry _ =>
    exact (Rests.begin (by simp [h.1, AllCalling]) entry).seated h.1 h.2
  | step | answer _ hmode | collectWithin hsafe =>
    obtain ⟨c₀, hframes, hconfig, hrests⟩ := h
    exact (hrests.step (by constructor <;> assumption)).seated hframes hconfig

/-- So it is in every run. -/
theorem seated {registry : Registry} {heap : Nat} {task : TaskId}
    (hs : (boot registry config heap task).Reaches s) : s.Seated config := by
  induction hs with
  | refl =>
    exact Vm.boot_induction (P := fun vm => vm.frames = #[] ∧ vm.config = config) ⟨rfl, rfl⟩
      (fun _ _ _ _ h => h) (fun _ _ _ h => h) fun _ _ h => h
  | tail _ hst ih => exact ih.step hst

end Seated
end Session

/-! ## Calls that fail -/

/-- The machine fails with an error and did not before: in a step, or over an answer. -/
structure Machine.Fails (m : Machine) (e : Error) (m' : Machine) : Prop where
  before : ∀ e, m.mode ≠ .raising e
  leads : m.step = .next m' ∨
    ∃ request a, m.mode = .waiting request ∧ m.resume a = .next m'
  after : m'.mode = .raising e

namespace Machine.Fails

variable {m m' : Machine} {e : Error}

theorem origin (h : m.Fails e m') : m.Origin e m' := by
  rcases h.leads with hstep | ⟨request, a, hmode, hresume⟩
  · exact .of_step h.before hstep h.after
  · exact .of_resume hmode hresume h.after

theorem step (h : m.Fails e m') : (Session.active m).Step (.active m') := by
  rcases h.leads with hstep | ⟨request, a, hmode, hresume⟩
  · exact .of_next hstep
  · have hst : (Session.active m).Step (.ofOutcome (m.resume a)) := .answer a hmode
    rwa [hresume] at hst

theorem eq (h : m.Fails e m') : m' = ⟨m'.vm, m.konts, .raising e⟩ := by
  cases h.origin <;> rfl

end Machine.Fails

namespace Session

/-- A call that waits for its outermost guard is not over as long as it takes steps. -/
theorem Step.above_guard {m : Machine} {t : Session} (hks : [.guard] <:+ m.konts)
    (hover : ¬ m.Over [.guard]) (hst : (active m).Step t) : t.Above [.guard] := by
  obtain ⟨upper, hupper⟩ := hks
  rcases upper with _ | ⟨k, upper⟩
  swap
  · exact hst.above hupper.symm (List.suffix_append _ _)
  have hkonts : m.konts = [.guard] := hupper.symm
  have hall : [.guard] <:+ m.konts := hkonts ▸ List.suffix_rfl
  cases hst with
  | answer a _ => exact Machine.continueWith_above hall fun _ _ => hall
  | collectWithin _ =>
    unfold collecting
    cases Vm.collect m.vm with
    | ok n vm => exact hall
    | error e vm => trivial
  | step =>
    unfold Machine.step
    cases hmode : m.mode with
    | running =>
      rw [hkonts]
      trivial
    | calling callee args =>
      exact Machine.continueWith_above hall fun r vm => Machine.ofReply_above hall r vm
    | constructing cls args =>
      exact Machine.continueWith_above hall fun r vm => Machine.ofReply_above hall r vm
    | returning v => exact absurd ⟨hkonts, .inl ⟨v, hmode⟩⟩ hover
    | raising e => exact absurd ⟨hkonts, .inr ⟨e, hmode⟩⟩ hover
    | waiting request => exact hall

/-- All along a call its guard waits, and the frames wait for their calls. -/
theorem Calls.guarded {c₀ : Context} {s t : Session} (h : s.Calls [.guard] t)
    (hs : s.Above [.guard] ∧ s.Rests c₀) : t.Above [.guard] ∧ t.Rests c₀ := by
  induction h with
  | refl => exact hs
  | tail _ hst ih =>
    obtain ⟨m, rfl, hover, hst⟩ := hst
    exact ⟨hst.above_guard ih.1 hover, ih.2.step hst⟩

variable {registry : Registry} {config : Config} {heap : Nat} {task : TaskId}

/-- While unwinding is traced, no object is made by hand in such a run. -/
theorem ReachesBy.natural {s : Session} {accepts : Vm → Operation → List Ref → Prop}
    (hs : (boot registry config heap task).ReachesBy (fun vm _ => vm.config.trace.vm = false)
      accepts s)
    (htrace : config.trace.vm = true) :
    (boot registry config heap task).ReachesBy (fun _ _ => False) accepts s := by
  induction hs with
  | refl => exact .refl
  | tail hreach hst ih =>
    refine ih.tail ?_
    cases hst with
    | operation c hlive ha => exact .operation c hlive ha
    | @alloc vm cls p _ hfits =>
      have hseated := (seated (ReachesBy.reaches hreach)).2
      rw [hseated, htrace] at hfits
      cases hfits
    | roots hst => exact .roots hst
    | collect => exact .collect
    | begin entry hlive => exact .begin entry hlive
    | active hst => exact .active hst

/-- The value of a failure has a text, where texts are asked for. -/
theorem failure_tells {vm : Vm} {konts : List Kont} {e : Error}
    (hlive : (active ⟨vm, konts, .raising e⟩).Live)
    (hclassed : vm.config.trace.vm = true → vm.heap.Classed) : vm.Tells e := by
  intro htrace
  have hstep : Machine.step ⟨vm, [.guard], .raising e⟩ =
      .next ⟨{ vm with heap := (vm.raised e).2 }, [], .raising (.panic (vm.raised e).1)⟩ :=
    Machine.continueWith_ok (Vm.raisedValue_run vm e)
  have hguard : (active ⟨vm, [.guard], .raising e⟩).Live := ⟨hlive.vm, trivial, hlive.mode⟩
  have hmade := hguard.step (.of_next hstep)
  have hclassed' :=
    Machine.step_classed hlive.vm (m := ⟨vm, [.guard], .raising e⟩) (hclassed htrace)
  rw [hstep] at hclassed'
  exact Heap.Classed.displayWithin hclassed' hmade.vm.heap.closed _
    (hmade.mode _ List.mem_cons_self)

/-- In every call of an embedding program that fails, whatever loops, constructors and native
functions the failure goes through, all of them hand it on, and the call ends with one raised value.
It is the very value that was raised, if the program raised one, and nothing else is made then.
Otherwise it is an error object, made once, with the message of the error and the instructions that
the frames were executing when it occurred. The look-up of a hash hides a missing key, and no other
error. Only functions of the embedding program that tell success from failure are left out, and
objects made by hand while unwinding is traced. -/
theorem panic_propagates {vm₀ : Vm}
    (hs : (boot registry config heap task).ReachesBy (fun vm _ => vm.config.trace.vm = false)
      (fun _ _ _ => True) (.idle vm₀))
    {callee : Ref} {args : List Ref} (hlive : ∀ r ∈ callee :: args, vm₀.heap.contains r = true)
    {m m' : Machine} {e : Error}
    (hcall : (ofOutcome (Entry.begin vm₀ (.invoke callee args))).Calls [.guard] (.active m))
    (hfails : m.Fails e m') (hattempt : .attempt ∉ m.konts) :
    ∃ sites w vm', m.Executes sites ∧
      m'.run (m.konts.length + 1) = .done vm' (.error (.panic w)) ∧
      (∀ n ≤ m.konts.length, ∃ u e', m'.run n = .next ⟨u, m.konts.drop n, .raising e'⟩ ∧
        (e' = e ∨ e' = .panic w)) ∧
      (∀ v, e = .panic v ↔ m.Panics v) ∧
      (∀ v, m.Panics v → w = v ∧ vm'.heap = m'.vm.heap) ∧
      ((∀ v, ¬ m.Panics v) →
        (w, vm'.heap) = m'.vm.heap.place ⟨Builtin.error.ref m'.vm.heap.id,
          .error ⟨e.message, none, sites.map Machine.backtraceLine⟩⟩) ∧
      ∀ hash key vm,
        (∃ c k u, Vm.getItem hash key vm = .error (.raised (.noItem c k)) u ∧
          Vm.hashGet hash key vm = .ok (nilRef u.heap.id) u) ∨
        (∀ c k u, Vm.getItem hash key vm ≠ .error (.raised (.noItem c k)) u) ∧
          Vm.hashGet hash key vm = Vm.getItem hash key vm := by
  obtain ⟨hframes, hconfig⟩ := seated hs.reaches
  have hbegin : (boot registry config heap task).ReachesBy (fun vm _ => vm.config.trace.vm = false)
      (fun _ _ _ => True) (ofOutcome (Entry.begin vm₀ (.invoke callee args))) :=
    hs.tail (.begin _ hlive)
  obtain ⟨habove, hb, hp⟩ := hcall.guarded
    ⟨List.suffix_rfl, .begin (by simp [hframes, AllCalling]) (.invoke callee args)⟩
  have hreach : (boot registry config heap task).ReachesBy (fun vm _ => vm.config.trace.vm = false)
      (fun _ _ _ => True) (.active m') := (hbegin.trans hcall.reaches).tail (.active hfails.step)
  -- the settings are those that the task began with
  have hrests : (active m').Rests vm₀.context := Rests.step ⟨hb, hp⟩ hfails.step
  have hconfig' : m'.vm.config = config := hrests.1.konts.level.1.trans hconfig
  have htells : m'.vm.Tells e := by
    have hlive' := (boot_live registry config heap task).reaches hreach.reaches
    rw [hfails.eq] at hlive'
    refine failure_tells hlive' fun htrace => ?_
    rw [hconfig'] at htrace
    exact (classed (hreach.natural htrace)).2
  obtain ⟨sites, hsites, hlines⟩ := hfails.origin.sites hb hp
  have hguard : .guard ∈ m.konts := habove.subset List.mem_cons_self
  have hpanic : ∀ v, e = .panic v ↔ m.Panics v := fun v => hfails.origin.panic_iff
  obtain ⟨vm', hdone, hheap⟩ := Machine.raising_done htells hattempt hguard
  rw [← hfails.eq] at hdone
  refine ⟨sites, _, vm', hsites, hdone, fun n hn => ?_, hpanic, fun v hv => ?_, fun hnone => ?_,
    fun hash key vm => Vm.hashGet_run hash key vm⟩
  · obtain ⟨u, e', hrun, hands, -⟩ := Machine.raising_run htells hattempt hn
    rw [← hfails.eq] at hrun
    exact ⟨u, e', hrun, hands.error⟩
  · obtain rfl := (hpanic v).mpr hv
    exact ⟨rfl, hheap⟩
  · have hmade : m'.vm.raised e = m'.vm.heap.place ⟨Builtin.error.ref m'.vm.heap.id,
        .error ⟨e.message, none, m'.vm.backtrace⟩⟩ := by
      cases e with
      | panic v => exact absurd ((hpanic v).mp rfl) (hnone v)
      | _ => rfl
    rw [hheap, ← hlines]
    exact hmade

/-- A unit that calls a closure, which reads a name that nothing has. -/
def lost : CodeUnit where
  name := "outer"
  code := #[.args .makeClosure 0 0 0, .args .call 0 0 0, .simple .ret]
  consts := [.code {
    name := "inner"
    code := #[.args .pushName 0 0 0, .simple .ret]
    names := ["nowhere"] }]

/-- The machine after some steps, none of which hands on a value or a failure. -/
def advance? : Nat → Machine → Option Machine
  | 0, m => some m
  | n + 1, m =>
    match m.mode, m.step with
    | .returning _, _ | .raising _, _ => none
    | _, .next m' => advance? n m'
    | _, _ => none

theorem advance?_calls {ks : List Kont} {n : Nat} {m m' : Machine} (h : advance? n m = some m') :
    (active m).Calls ks (active m') := by
  induction n generalizing m with
  | zero =>
    cases h
    exact .refl
  | succ n ih =>
    unfold advance? at h
    split at h
    case h_1 | h_2 | h_4 => cases h
    rename_i hstep hreturning hraising
    refine .head ⟨m, rfl, ?_, .of_next hstep⟩ (ih h)
    rintro ⟨-, ⟨v, hmode⟩ | ⟨e, hmode⟩⟩
    · exact hreturning v hmode
    · exact hraising e hmode

/-- The error over which the next instruction fails. -/
def failure? (m : Machine) : Option (Error × Machine) :=
  match m.mode, m.step with
  | .running, .next ⟨vm, ks, .raising e⟩ => some (e, ⟨vm, ks, .raising e⟩)
  | _, _ => none

theorem failure?_fails {m m' : Machine} {e : Error} (h : failure? m = some (e, m')) :
    m.mode = .running ∧ m.Fails e m' := by
  unfold failure? at h
  split at h
  case h_2 => cases h
  rename_i hmode hstep
  cases h
  exact ⟨hmode, ⟨by simp [hmode], .inl hstep, rfl⟩⟩

/-- Two frames are active when the name is not found, and the error object tells where they are. -/
theorem panic_propagates_lost : ∃ vm₀ m m' sites w vm',
    (boot {} {} 0 ⟨0, 0⟩).Reaches (.idle vm₀) ∧
    (ofOutcome (Entry.begin vm₀ (.invoke ⟨0, 45, 0⟩ []))).Calls [.guard] (.active m) ∧
    m.Fails (.unbound "nowhere") m' ∧ m.Executes sites ∧
    sites.map Machine.backtraceLine = ["inner @0", "outer @1"] ∧
    m'.run 3 = .done vm' (.error (.panic w)) ∧
    (w, vm'.heap) = m'.vm.heap.place ⟨Builtin.error.ref m'.vm.heap.id,
      .error ⟨"unbound name `nowhere`", none, ["inner @0", "outer @1"]⟩⟩ := by
  have hrun : ((follow? [.operate (.method lost) []] (boot {} {} 0 ⟨0, 0⟩)).bind idle?).any
      (fun vm => vm.heap.contains ⟨0, 45, 0⟩ &&
        (advance? 3 ⟨vm, [.guard], .calling ⟨0, 45, 0⟩ []⟩).any fun m =>
          m.konts == [.loop 0 0, .guard] && (failure? m).any (·.1 == .unbound "nowhere") &&
          m.vm.frames.toList.map (fun f => (f.unit.name, f.ip)) == [("outer", 2), ("inner", 0)]) =
      true := by
    decide +kernel
  obtain ⟨vm₀, hidle, hrun⟩ := (Option.any_eq_true _ _).mp hrun
  simp only [Bool.and_eq_true, Option.any_eq_true, beq_iff_eq] at hrun
  obtain ⟨hmethod, m, hadvance, ⟨hkonts, ⟨_, m'⟩, hfailure, rfl⟩, hframes⟩ := hrun
  have hreach : (boot {} {} 0 ⟨0, 0⟩).ReachesBy (fun vm _ => vm.config.trace.vm = false)
      (fun _ _ _ => True) (.idle vm₀) := follow?_idle (fun _ _ _ _ => trivial) hidle
  have hcall : (ofOutcome (Entry.begin vm₀ (.invoke ⟨0, 45, 0⟩ []))).Calls [.guard] (.active m) :=
    advance?_calls hadvance
  obtain ⟨hmode, hfails⟩ := failure?_fails hfailure
  obtain ⟨sites, w, vm', hsites, hdone, -, hpanic, -, herror, -⟩ :=
    panic_propagates hreach (by simpa using hmethod) hcall hfails (by simp [hkonts])
  have hlines : sites.map Machine.backtraceLine = ["inner @0", "outer @1"] := by
    obtain ⟨f, _, hlist, hf, hrest⟩ := List.map_eq_cons_iff.mp hframes
    obtain ⟨g, _, rfl, hg, hnil⟩ := List.map_eq_cons_iff.mp hrest
    obtain rfl := List.map_eq_nil_iff.mp hnil
    have hfirst : sites.map Prod.fst = [g, f] := by rw [hsites.frames, hlist]; rfl
    obtain ⟨s, _, rfl, rfl, hsecond⟩ := List.map_eq_cons_iff.mp hfirst
    obtain ⟨t, _, rfl, rfl, hthird⟩ := List.map_eq_cons_iff.mp hsecond
    obtain rfl := List.map_eq_nil_iff.mp hthird
    obtain ⟨-, hs, -⟩ | ⟨hmode', -⟩ := hsites.innermost s rfl
    swap
    · exact absurd hmode hmode'
    obtain ⟨ht, -⟩ := hsites.outer t List.mem_cons_self
    obtain ⟨hfname, hfip⟩ := Prod.mk.inj hf
    obtain ⟨hgname, hgip⟩ := Prod.mk.inj hg
    have htwo : t.2 = 1 := Nat.succ.inj (ht.symm.trans hfip)
    rw [List.map_cons, List.map_singleton, Machine.backtraceLine, Machine.backtraceLine, hfname,
      hgname, hs.trans hgip, htwo]
    decide
  refine ⟨vm₀, m, m', sites, w, vm', hreach.reaches, hcall, hfails, hsites, hlines, ?_, ?_⟩
  · rw [hkonts] at hdone
    exact hdone
  · rw [← hlines]
    exact herror fun v hv => absurd ((hpanic v).mpr hv) (by simp)

end Session
end ObjectMachine
