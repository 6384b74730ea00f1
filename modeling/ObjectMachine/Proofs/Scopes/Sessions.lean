import ObjectMachine.Proofs.Host.Liveness
import ObjectMachine.Proofs.Scopes.Steps

/-!
# ObjectMachine.Proofs.Scopes.Sessions

What sessions do to variables, methods and frames.

* `Session.Assigns` — the steps that assign a variable: stores to names that stand for it, calls of
  methods that have captured it as a parameter, and writes of the embedding program.
* `Session.Step.active_develops` — a step of a call collects and evolves, and assigns nothing else.
* `Session.Step.keeps` — every step leaves methods, code and frames as they are, and the variables
  that it does not assign.
* `Session.orderly` — in every run the running frames have the variables that their methods have
  captured.
-/

namespace ObjectMachine

open ObjectMachine.Action

/-- The innermost loop of a machine stands at an instruction. -/
structure Machine.Stands (m : Machine) (f : ActiveFrame) (op : Op) (i : Instr) : Prop where
  mode : m.mode = .running
  loop : ∃ floor base outer, m.konts = .loop floor base :: outer
  frame : m.vm.frames.back? = some f
  instr : f.unit.code[f.ip]? = some i
  op : i.op? = some op

/-- Whether the innermost loop of a machine stands at an instruction. -/
def Machine.standsAt (m : Machine) (op : Op) : Bool :=
  match m.mode, m.konts with
  | .running, .loop _ _ :: _ =>
    m.vm.frames.back?.any fun f => f.unit.code[f.ip]?.any (·.op? == some op)
  | _, _ => false

theorem Machine.standsAt_iff {m : Machine} {op : Op} :
    m.standsAt op = true ↔ ∃ f i, m.Stands f op i := by
  constructor
  · intro h
    unfold standsAt at h
    split at h
    case h_2 => cases h
    rename_i hmode hkonts
    obtain ⟨f, hf, h⟩ := (Option.any_eq_true _ _).mp h
    obtain ⟨i, hi, h⟩ := (Option.any_eq_true _ _).mp h
    exact ⟨f, i, hmode, ⟨_, _, _, hkonts⟩, hf, hi, beq_iff_eq.mp h⟩
  · rintro ⟨f, i, hmode, ⟨_, _, _, hkonts⟩, hf, hi, hop⟩
    simp [standsAt, hmode, hkonts, hf, hi, hop]

/-- The steps that assign a variable. -/
inductive Session.Assigns (v : Ref) : Session → Session → Prop where
  /-- A store to a name that stands for it. -/
  | store {m : Machine} {f : ActiveFrame} {i : Instr} {name : String} : m.Stands f .storeName i →
      f.unit.names[i.arg1.toNat]? = some name → Vm.scopedVar? name m.vm = .ok (some v) m.vm →
      Assigns v (.active m) (.ofOutcome m.step)
  /-- A new frame runs, whose method has captured it under the name of a parameter. -/
  | enter {s t : Session} {g : ActiveFrame} : t.vm.frames.back? = some g →
      (∀ f ∈ s.vm.frames, f.frame ≠ g.frame) → t.vm.heap.BindsParam g.method v → Assigns v s t
  /-- The embedding program writes it. -/
  | write {vm : Vm} {value : Ref} :
      Assigns v (.idle vm) (.ofResult (Operation.writeVar.run [v, value] vm))

/-- The system has not come to its end. -/
def Session.Open : Session → Prop
  | .ended _ _ => False
  | _ => True

namespace Session

variable {α : Type} {a : Action α} {u v : Vm} {konts : List Kont} {f : α → Vm → Machine}

/-- Where an action leads that a machine performs. -/
theorem continueWith_same (hf : ∀ x vm, (f x vm).vm.Same vm) :
    (ofOutcome (Machine.continueWith a u konts f)).vm.Same (final (a u)) := by
  unfold Machine.continueWith
  cases a u with
  | ok x vm => exact hf x vm
  | error e vm => cases e <;> exact .refl _

theorem continueWith_develops {A : Ref → Prop} (h : v.Develops A (final (a u)))
    (hf : ∀ x vm, (f x vm).vm.Same vm) :
    v.Develops A (ofOutcome (Machine.continueWith a u konts f)).vm :=
  h.of_same (continueWith_same hf)

/-- What an action leads to that only adds. -/
theorem continueWith_adds [ha : Adds a] (hfree : u.heap.FreeList)
    (hf : ∀ x vm, (f x vm).vm.Same vm) :
    u.Works Eq (ofOutcome (Machine.continueWith a u konts f)).vm :=
  (ha.works u hfree).of_same (continueWith_same hf)

/-- What is assigned when a frame is entered. -/
theorem continueWith_conduct {t : Session} (hs : v.heap.Sweeps u.heap)
    (hframes : u.frames = v.frames) (hroots : ∀ g ∈ v.frames, u.heap.contains g.frame = true)
    (h : u.Conduct (a u)) (hf : ∀ x vm, (f x vm).vm.Same vm)
    (ht : t = ofOutcome (Machine.continueWith a u konts f)) (hopen : t.Open) :
    v.Develops (fun r => ∃ g, t.vm.frames.back? = some g ∧
      (∀ e ∈ v.frames, e.frame ≠ g.frame) ∧ t.vm.heap.BindsParam g.method r) t.vm := by
  subst ht
  have hsame := @continueWith_same _ a u konts f hf
  rcases h with h | @⟨x, v', g, hout, h⟩ | @⟨e, v', hout, he⟩
  · exact (continueWith_develops (.of_advances hs hframes h) hf).mono fun _ => False.elim
  · rw [hout] at hsame
    have henters := h.of_eq hsame.heap hsame.frames
    refine (Vm.Develops.of_enters hs hframes henters).mono fun r hr => ⟨g, henters.top, ?_, hr⟩
    intro e he heq
    have hlive := hroots e he
    rw [heq, h.fresh] at hlive
    cases hlive
  · unfold Machine.continueWith at hopen
    rw [hout] at hopen
    cases e with
    | raised e => exact absurd rfl (he e)
    | fatal e => exact hopen.elim
    | crashed => exact hopen.elim

end Session

/-! ## Steps of calls -/

theorem Vm.Live.frame_live {v : Vm} (h : v.Live) {f : ActiveFrame} (hf : f ∈ v.frames) {r : Ref}
    (hr : r ∈ f.frame :: f.method :: f.code :: f.module.toList) : v.heap.contains r = true :=
  h.roots r (Vm.mem_roots_frame (Array.mem_toList_iff.mpr hf) hr)

namespace Machine

variable {m : Machine} {t : Session}

theorem ofReply_same (konts : List Kont) (reply : Reply) (vm : Vm) :
    (ofReply konts reply vm).vm.Same vm := by
  cases reply <;> exact ⟨rfl, rfl, rfl⟩

theorem returning_adds {vm : Vm} (hf : vm.heap.FreeList) (v : Ref) (konts : List Kont) :
    vm.Works Eq (Session.ofOutcome (stepReturning v vm konts)).vm := by
  rcases konts with _ | ⟨_ | _ | _ | _ | _, konts⟩
  · exact .refl hf
  · exact .refl hf
  · exact Session.continueWith_adds hf fun _ vm => .refl vm
  · exact (Vm.Works.refl hf).of_same ⟨rfl, rfl, rfl⟩
  · exact Session.continueWith_adds hf fun _ vm => .refl vm
  · exact .refl hf

theorem raising_adds {vm : Vm} (hf : vm.heap.FreeList) (e : Error) (konts : List Kont) :
    vm.Works Eq (Session.ofOutcome (stepRaising e vm konts)).vm := by
  rcases konts with _ | ⟨_ | _ | _ | _ | _, konts⟩
  · exact .refl hf
  · exact Session.continueWith_adds hf fun _ vm => .refl vm
  · exact .refl hf
  · exact (Vm.Works.refl hf).of_same ⟨rfl, rfl, rfl⟩
  · exact Session.continueWith_adds hf fun _ vm => .refl vm
  · exact Session.continueWith_adds hf fun _ vm => .refl vm

/-- What a machine does in one step: it performs an instruction, after the collector may have run,
or it calls something, or it only adds objects. -/
inductive Does (m : Machine) : Session → Prop where
  | performs {u : Vm} {floor base : Nat} {outer : List Kont} {f : Flow → Vm → Machine} :
      m.mode = .running → m.konts = .loop floor base :: outer → Vm.tick m.vm = .ok () u →
      m.vm.Swept u → (∀ x vm, (f x vm).vm.Same vm) →
      m.Does (.ofOutcome (continueWith (Vm.performIn floor) u m.konts f))
  | calls {callee : Ref} {args : List Ref} : m.mode = .calling callee args →
      m.Does (.ofOutcome (continueWith (Vm.call callee args) m.vm m.konts (ofReply m.konts)))
  | adds {t : Session} : m.vm.Works Eq t.vm → m.Does t

theorem does_step (hlive : m.vm.Live) : m.Does (.ofOutcome m.step) := by
  have hf := hlive.heap.freeList
  cases hmode : m.mode with
  | running =>
    rcases hkonts : m.konts with _ | ⟨_ | _ | _ | _ | _, outer⟩
    case cons.loop floor base =>
      obtain ⟨u, htick, hswept⟩ := Vm.tick_swept hlive.heap hlive.roots
      have hrun : m.step = stepRunning m.vm (.loop floor base :: outer) := by
        rw [step, hmode, hkonts]
      rw [hrun, stepRunning, continueWith_eq (Vm.stepLoop_after floor htick), ← hkonts]
      refine .performs hmode hkonts htick hswept fun x vm => ?_
      cases x <;> exact .refl vm
    all_goals
      -- without a loop there is no frame to run
      rw [step, hmode, hkonts]
      exact .adds (.refl hf)
  | calling callee args =>
    rw [step, hmode]
    exact .calls hmode
  | constructing cls args =>
    rw [step, hmode]
    exact .adds (Session.continueWith_adds hf (ofReply_same m.konts))
  | returning v =>
    rw [step, hmode]
    exact .adds (returning_adds hf v m.konts)
  | raising e =>
    rw [step, hmode]
    exact .adds (raising_adds hf e m.konts)
  | waiting request =>
    rw [step, hmode]
    exact .adds (.refl hf)

/-- An instruction assigns what a store or the entry of a frame assigns. -/
theorem performs_develops (hlive : m.vm.Live) {u : Vm} {floor base : Nat} {outer : List Kont}
    {f : Flow → Vm → Machine} (hmode : m.mode = .running)
    (hkonts : m.konts = .loop floor base :: outer)
    (htick : Vm.tick m.vm = .ok () u) (hswept : m.vm.Swept u)
    (hf : ∀ x vm, (f x vm).vm.Same vm)
    (ht : t = .ofOutcome (continueWith (Vm.performIn floor) u m.konts f))
    (hstep : t = .ofOutcome m.step) (hopen : t.Open) :
    m.vm.Develops (fun r => (Session.active m).Assigns r t) t.vm := by
  obtain ⟨hs, hframes⟩ := Vm.tick_sweeps htick
  have hroots : ∀ g ∈ m.vm.frames, u.heap.contains g.frame = true := fun g hg =>
    hswept.live _ (Vm.mem_roots_frame (Array.mem_toList_iff.mpr hg) List.mem_cons_self)
  rcases Vm.performIn_cases (hs.freeList hlive.heap.freeList) floor with hconduct | hstore
  · refine (Session.continueWith_conduct hs hframes hroots hconduct hf ht hopen).mono ?_
    rintro r ⟨g, hg, hnew, hparam⟩
    exact .enter hg hnew hparam
  · obtain ⟨g, i, hback, hi, hop, hadv⟩ := hstore
    have hdev : m.vm.Develops _
        (Session.ofOutcome (continueWith (Vm.performIn floor) u m.konts f)).vm :=
      Session.continueWith_develops (.of_advances hs hframes hadv) hf
    rw [← ht] at hdev
    refine hdev.mono ?_
    rintro r ⟨name, hname, hres⟩
    rw [hframes] at hback
    rw [hstep]
    exact .store ⟨hmode, ⟨floor, base, outer, hkonts⟩, hback, hi, hop⟩ hname
      (Vm.scopedVar?_eq_some.mpr ⟨⟨g, hback, hs.resolves hres⟩, rfl⟩)

/-- One step assigns what `Session.Assigns` says, and no more. -/
theorem step_develops (hlive : m.vm.Live) (ht : t = .ofOutcome m.step) (hopen : t.Open) :
    m.vm.Develops (fun r => (Session.active m).Assigns r t) t.vm := by
  have hf := hlive.heap.freeList
  have hdoes := does_step hlive
  rw [← ht] at hdoes
  cases hdoes with
  | performs hmode hkonts htick hswept hfs =>
    exact performs_develops hlive hmode hkonts htick hswept hfs rfl ht hopen
  | @calls callee args hmode =>
    rcases Vm.call_cases hf callee args with hconduct | hdev
    · refine (Session.continueWith_conduct (.inl rfl) rfl ?_ hconduct (ofReply_same m.konts) rfl
        hopen).mono ?_
      · exact fun g hg => hlive.frame_live hg List.mem_cons_self
      · rintro r ⟨g, hg, hnew, hparam⟩
        exact .enter hg hnew hparam
    · exact (Session.continueWith_develops hdev (ofReply_same m.konts)).mono fun _ => False.elim
  | adds hworks => exact (Vm.Develops.of_works hworks).mono fun _ => False.elim

end Machine

theorem Session.collecting_develops {m : Machine} (hf : m.vm.heap.FreeList) :
    m.vm.Develops noVar (Session.collecting m).vm := by
  obtain ⟨hs, hframes⟩ := Vm.collect_sweeps m.vm
  unfold Session.collecting
  cases hrun : Vm.collect m.vm with
  | ok n u =>
    rw [hrun] at hs hframes
    exact .of_advances hs hframes (.refl (hs.freeList hf))
  | error e u =>
    rw [hrun] at hs hframes
    exact .of_advances hs hframes (.refl (hs.freeList hf))

/-- A step of a call assigns what `Session.Assigns` says, and no more. -/
theorem Session.Step.active_develops {m : Machine} {t : Session} (hlive : m.vm.Live)
    (hst : (Session.active m).Step t) (hopen : t.Open) :
    m.vm.Develops (fun r => (Session.active m).Assigns r t) t.vm := by
  have hf := hlive.heap.freeList
  cases hst with
  | step => exact Machine.step_develops hlive rfl hopen
  | answer a _ =>
    exact (Vm.Develops.of_works (continueWith_adds hf fun _ vm => .refl vm)).mono fun _ =>
      False.elim
  | collectWithin _ => exact (collecting_develops hf).mono fun _ => False.elim

/-! ## Operations of the embedding program -/

namespace Acts

variable {α : Type} {R : Payload → Payload → Prop} [Gentle R]

instance zero (a : Action (List Ref)) [Acts R a] (operands : List Ref) :
    Acts R (Operands.zero a operands) := by
  unfold Operands.zero
  split <;> infer_instance

instance one (f : Ref → Action (List Ref)) [∀ x, Acts R (f x)] (operands : List Ref) :
    Acts R (Operands.one f operands) := by
  unfold Operands.one
  split <;> infer_instance

instance option (f : Option Ref → Action (List Ref)) [∀ x, Acts R (f x)] (operands : List Ref) :
    Acts R (Operands.option f operands) := by
  unfold Operands.option
  split <;> infer_instance

instance two (f : Ref → Ref → Action (List Ref)) [∀ x y, Acts R (f x y)] (operands : List Ref) :
    Acts R (Operands.two f operands) := by
  unfold Operands.two
  split <;> infer_instance

instance three (f : Ref → Ref → Ref → Action (List Ref)) [∀ x y z, Acts R (f x y z)]
    (operands : List Ref) : Acts R (Operands.three f operands) := by
  unfold Operands.three
  split <;> infer_instance

instance first (f : Ref → List Ref → Action (List Ref)) [∀ x xs, Acts R (f x xs)]
    (operands : List Ref) : Acts R (Operands.first f operands) := by
  unfold Operands.first
  split <;> infer_instance

instance single (a : Action Ref) [Acts R a] : Acts R (Operands.single a) := by
  unfold Operands.single; infer_instance

instance silent (a : Action α) [Acts R a] : Acts R (Operands.silent a) := by
  unfold Operands.silent; infer_instance

instance contentsOf (r : Ref) : Adds (Operation.contentsOf r) := by
  unfold Operation.contentsOf; infer_instance

instance methodNamed (cls : Ref) (name : String) : Adds (Operation.methodNamed cls name) := by
  unfold Operation.methodNamed; infer_instance

instance named (table : Vm → NameMap Ref) (name : String) : Adds (Operation.named table name) := by
  unfold Operation.named; infer_instance

instance emptying : Adds (modify fun vm => { vm with output := "" } : Action Unit) :=
  changingNames (fun _ => rfl) (fun _ => rfl) fun _ => rfl

instance takeOutput : Adds Vm.takeOutput := by
  unfold Vm.takeOutput; infer_instance

end Acts

/-- The operations that set contents, whatever they were. -/
def Operation.Edits : Operation → Prop
  | .setItems | .setSlots | .addLocal _ => True
  | _ => False

namespace Acts

theorem writeVar {A : Prop} (hA : A) (var value : Ref) :
    Acts (Payload.Changes A) (Vm.writeVar var value) :=
  ⟨fun _ hf => (Vm.writeVar_works hf var value).mono fun _ _ h => h.changes.imp fun _ => hA⟩

/-- The other operations. A method may be given a module that is none. -/
theorem operation {A : Prop} {c : Operation} (hwrite : c = .writeVar → A)
    (hmethod : ∀ unit, c ≠ .method unit) (hedits : ¬ c.Edits) (operands : List Ref) :
    Acts (Payload.Changes A) (c.run operands) := by
  cases c with
  | writeVar =>
    have := writeVar (hwrite rfl)
    unfold Operation.run
    infer_instance
  | method unit => exact absurd rfl (hmethod unit)
  | setItems => exact absurd trivial hedits
  | setSlots => exact absurd trivial hedits
  | addLocal name => exact absurd trivial hedits
  | _ => unfold Operation.run; infer_instance

/-- Whole contents are set in place, but a module may be given another variable for a name. -/
theorem operationBecomes {A : Prop} {c : Operation} (hwrite : c = .writeVar → A)
    (hmethod : ∀ unit, c ≠ .method unit) (hlocal : ∀ name, c ≠ .addLocal name)
    (operands : List Ref) : Acts (Payload.Becomes A) (c.run operands) := by
  by_cases hedits : c.Edits
  · cases c with
    | setItems => unfold Operation.run; infer_instance
    | setSlots => unfold Operation.run; infer_instance
    | addLocal name => exact absurd rfl (hlocal name)
    | _ => exact hedits.elim
  · have := operation hwrite hmethod hedits operands
    infer_instance

end Acts

namespace Tame

instance methodOperation (unit : CodeUnit) (operands : List Ref) :
    Tame ((Operation.method unit).run operands) := by
  show Tame (Operands.option (fun module => Operands.single (Vm.newBytecodeMethod unit module)) _)
  unfold Operands.option Operands.single
  split <;> infer_instance

/-- The embedding program changes contents with two operations only. -/
theorem operation {c : Operation} (hwrite : c ≠ .writeVar) (hlocal : ∀ name, c ≠ .addLocal name)
    (operands : List Ref) : Tame (c.run operands) := by
  by_cases hmethod : ∃ unit, c = .method unit
  · obtain ⟨unit, rfl⟩ := hmethod
    infer_instance
  · have := Acts.operationBecomes (A := False) hwrite (fun unit h => hmethod ⟨unit, h⟩) hlocal
      operands
    infer_instance

end Tame

/-! ## Steps of sessions -/

/-- What a step leaves as it is. -/
structure Session.Keeps (s t : Session) : Prop where
  heap : t.vm.heap.id = s.vm.heap.id
  objects : ∀ r p, s.vm.heap.payload r = .ok p → t.vm.heap.contains r = true →
    p.Lasting (s.Assigns r t) → t.vm.heap.payload r = .ok p
  classes : ∀ r o, s.vm.heap.get r = .ok o → t.vm.heap.contains r = true →
    ∃ p, t.vm.heap.get r = .ok ⟨o.cls, p⟩ ∧ (o.payload.Fixed → p = o.payload)
  frames : ∀ f' ∈ t.vm.frames, (∃ f ∈ s.vm.frames, f'.still = f.still) ∨ f'.Built t.vm.heap

namespace Session

variable {s t : Session}

theorem Keeps.of_develops (h : s.vm.Develops (fun r => s.Assigns r t) t.vm) : s.Keeps t where
  heap := h.heap.id
  objects _ _ hp hr hlasting := h.heap.payload_lasting hp hr hlasting
  classes r o ho hr := by
    obtain ⟨p, hp, hbecomes⟩ := h.heap.get ho hr
    exact ⟨p, hp, hbecomes.eq_of_fixed⟩
  frames := h.frames

theorem ofResult_vm {α : Type} (out : EStateM.Result Stop Vm α) :
    (ofResult out).vm = final out := by
  cases out with
  | ok => rfl
  | error e => cases e <;> rfl

/-- After an operation that assigns what it may. -/
theorem Keeps.of_advances {α : Type} {a : Action α} {vm : Vm}
    (h : vm.Advances (fun r => (idle vm).Assigns r (ofResult (a vm))) (final (a vm))) :
    (idle vm).Keeps (ofResult (a vm)) := by
  refine .of_develops ?_
  rw [ofResult_vm]
  exact .of_advances (.inl rfl) rfl h

theorem Keeps.of_tame {α : Type} (a : Action α) [ha : Tame a] {vm : Vm} (hf : vm.heap.FreeList) :
    (idle vm).Keeps (ofResult (a vm)) :=
  .of_advances ((ha.advances vm hf).mono fun _ => False.elim)

/-- Other permanent roots make no difference. -/
theorem Keeps.of_same {vm : Vm} {t : Session} (hid : t.vm.heap.id = vm.heap.id)
    (hget : ∀ r, t.vm.heap.get r = vm.heap.get r) (hframes : t.vm.frames = vm.frames) :
    (idle vm).Keeps t where
  heap := hid
  objects r p hp _ _ := by
    obtain ⟨k, hk⟩ := Heap.payload_eq_ok_iff.mp hp
    exact Heap.payload_eq_ok_iff.mpr ⟨k, (hget r).trans hk⟩
  classes r o ho _ := ⟨o.payload, (hget r).trans ho, fun _ => rfl⟩
  frames f' hf' := .inl ⟨f', hframes ▸ hf', rfl⟩

/-- A name of a module gets another variable. -/
theorem Keeps.addLocal {vm : Vm} (name : String) (operands : List Ref) :
    (idle vm).Keeps (ofResult ((Operation.addLocal name).run operands vm)) := by
  rcases operands with _ | ⟨module, _ | ⟨var, _ | ⟨z, rest⟩⟩⟩
  · exact .of_same rfl (fun _ => rfl) rfl
  · exact .of_same rfl (fun _ => rfl) rfl
  · have hget : ∀ {r o}, vm.heap.get r = .ok o → ∃ p,
        (vm.heap.update module (Payload.addLocal name var)).get r = .ok ⟨o.cls, p⟩ ∧
          (o.payload.addLocal name var = o.payload → p = o.payload) := by
      intro r o ho
      rw [Heap.get_update, ho]
      by_cases hcell : module.cell = r.cell
      · exact ⟨o.payload.addLocal name var, by simp [Except.map, hcell], id⟩
      · exact ⟨o.payload, by simp [Except.map, hcell], fun _ => rfl⟩
    refine ⟨rfl, fun r p hp _ hlasting => ?_, fun r o ho _ => ?_, fun f' hf' => .inl ⟨f', hf', rfl⟩⟩
    · obtain ⟨k, hk⟩ := Heap.payload_eq_ok_iff.mp hp
      have hsame : p.addLocal name var = p := by
        cases p with
        | module m => cases hlasting
        | _ => rfl
      obtain ⟨q, hq, heq⟩ := hget hk
      obtain rfl := heq hsame
      exact Heap.payload_eq_ok_iff.mpr ⟨k, hq⟩
    · obtain ⟨q, hq, heq⟩ := hget ho
      exact ⟨q, hq, fun hfixed => heq (Payload.addLocal_eq (.inl hfixed))⟩
  · exact .of_same rfl (fun _ => rfl) rfl

theorem Keeps.operation {vm : Vm} (hf : vm.heap.FreeList) (c : Operation) (operands : List Ref) :
    (idle vm).Keeps (ofResult (c.run operands vm)) := by
  by_cases hwrite : c = .writeVar
  · subst hwrite
    rcases operands with _ | ⟨x, _ | ⟨y, _ | ⟨z, rest⟩⟩⟩
    · exact .of_same rfl (fun _ => rfl) rfl
    · exact .of_same rfl (fun _ => rfl) rfl
    · refine .of_advances ?_
      have hwrite : vm.Advances (fun r => r = x) (final (Vm.writeVar x y vm)) :=
        Vm.writeVar_advances hf rfl
      refine .mono (A := fun r => r = x) ?_ ?_
      · exact .bind hwrite fun _ _ hrun => hwrite.of_ok hrun
      · rintro r rfl
        exact .write
    · exact .of_same rfl (fun _ => rfl) rfl
  · by_cases hlocal : ∃ name, c = .addLocal name
    · obtain ⟨name, rfl⟩ := hlocal
      exact .addLocal name operands
    · have := Tame.operation hwrite (fun name h => hlocal ⟨name, h⟩) operands
      exact .of_tame _ hf

theorem Keeps.begin {vm : Vm} (hlive : vm.Live) (entry : Entry)
    (hopen : (ofOutcome (entry.begin vm)).Open) : (idle vm).Keeps (ofOutcome (entry.begin vm)) := by
  cases entry with
  | bytecode method args =>
    refine .of_develops ?_
    have hconduct := Vm.enterLoop_conduct hlive.heap.freeList method args
    refine Vm.Develops.mono
      (continueWith_conduct (.inl rfl) rfl ?_ hconduct (fun _ vm => .refl vm) rfl hopen) ?_
    · exact fun g hg => hlive.frame_live hg List.mem_cons_self
    · rintro r ⟨g, hg, hnew, hparam⟩
      exact .enter hg hnew hparam
  | _ => exact .of_same rfl (fun _ => rfl) rfl

theorem Step.keeps (hlive : s.Live) (hst : s.Step t) (hopen : t.Open) : s.Keeps t := by
  cases hst with
  | operation c _ => exact .operation (Vm.Live.heap hlive).freeList c _
  | alloc _ => exact .of_tame _ (Vm.Live.heap hlive).freeList
  | pushTemp _ => exact .of_same rfl (fun _ => rfl) rfl
  | popTemp => exact .of_same rfl (fun _ => rfl) rfl
  | @addRoot vm r hr =>
    have hown : vm.heap.checkOwn r = .ok () := if_pos (Heap.contains_heap hr)
    unfold Vm.addRoot Heap.addRoot
    rw [hown]
    exact .of_same rfl (fun _ => rfl) rfl
  | removeRoot _ => exact .of_same rfl (fun _ => rfl) rfl
  | @collect vm =>
    have hf := (Vm.Live.heap hlive).freeList
    obtain ⟨hs, hframes⟩ := Vm.collect_sweeps vm
    refine .of_develops ?_
    rw [ofResult_vm]
    exact .of_advances hs hframes (.refl (hs.freeList hf))
  | begin entry _ => exact .begin hlive entry hopen
  | step => exact .of_develops (Step.active_develops (Machine.Live.vm hlive) .step hopen)
  | answer a h =>
    exact .of_develops (Step.active_develops (Machine.Live.vm hlive) (.answer a h) hopen)
  | collectWithin h =>
    exact .of_develops (Step.active_develops (Machine.Live.vm hlive) (.collectWithin h) hopen)

theorem Step.open_left (hst : s.Step t) : s.Open := by
  cases hst <;> trivial

/-! ## Frames -/

/-- The running frames have what their methods have captured. -/
def Framed (s : Session) : Prop :=
  ∀ f ∈ s.vm.frames, f.Built s.vm.heap

theorem Framed.step (hlive : s.Live) (hframed : s.Framed) (hst : s.Step t) (hopen : t.Open) :
    t.Framed := by
  have hkeeps := hst.keeps hlive hopen
  have hlive' := (hlive.step hst).vm_live
  intro f' hf'
  rcases hkeeps.frames f' hf' with ⟨f, hf, hstill⟩ | hbuilt
  · have hcontains := fun r hr => hlive'.frame_live hf' (r := r) hr
    obtain ⟨frame, method, code, module, unit, ip, base⟩ := f
    obtain ⟨rfl, rfl, rfl, rfl, rfl⟩ : f'.frame = frame ∧ f'.method = method ∧ f'.code = code ∧
        f'.module = module ∧ f'.unit = unit := by
      simpa [ActiveFrame.still] using hstill
    obtain ⟨hm, hcode, hmodule, hval, hunit, hfr, hmethod, hvars⟩ := hframed _ hf
    exact .intro (hkeeps.objects _ _ hm (hcontains _ (by simp)) trivial) hcode hmodule
      (hkeeps.objects _ _ hval (hcontains _ (by simp)) trivial) hunit
      (hkeeps.objects _ _ hfr (hcontains _ (by simp)) trivial) hmethod hvars
  · exact hbuilt

end Session

theorem Vm.foldl_frames {β : Type} {g : Vm → β → Vm} (hg : ∀ vm b, (g vm b).frames = vm.frames)
    (bs : List β) (vm : Vm) : (bs.foldl g vm).frames = vm.frames := by
  induction bs generalizing vm with
  | nil => rfl
  | cons b bs ih => exact (ih _).trans (hg vm b)

/-- No frame runs in a new task. -/
theorem Vm.boot_frames (registry : Registry) (config : Config) (heap : Nat) (task : TaskId) :
    (Vm.boot registry config heap task).frames = #[] := by
  have hmethod : ∀ (k : Builtin) (vm : Vm) (m : String × Native),
      (vm.bootMethod k m.1 m.2).frames = vm.frames := fun _ _ _ => rfl
  have hmethods : ∀ (vm : Vm) (k : Builtin),
      (k.methods.foldl (fun vm m => vm.bootMethod k m.1 m.2) vm).frames = vm.frames :=
    fun vm k => foldl_frames (hmethod k) k.methods vm
  have hglobal : ∀ (vm : Vm) (g : String × Native), (vm.bootGlobal g.1 g.2).frames = vm.frames :=
    fun _ _ => rfl
  unfold Vm.boot
  dsimp only
  split <;> simp only [foldl_frames hglobal, foldl_frames hmethods]

namespace Session

/-- What holds of a session all along. -/
structure Orderly (s : Session) : Prop where
  live : s.Live
  framed : s.Open → s.Framed

theorem Orderly.step {s t : Session} (h : s.Orderly) (hst : s.Step t) : t.Orderly :=
  ⟨h.live.step hst, fun hopen => (h.framed hst.open_left).step h.live hst hopen⟩

/-- In every run, whatever the programs are and whatever the embedding program does. -/
theorem orderly (registry : Registry) (config : Config) (heap : Nat) (task : TaskId)
    {s : Session} (hs : (boot registry config heap task).Reaches s) : s.Orderly := by
  induction hs with
  | refl =>
    refine ⟨boot_live registry config heap task, fun _ f hf => ?_⟩
    rw [show (boot registry config heap task).vm.frames = #[] from
      Vm.boot_frames registry config heap task] at hf
    exact absurd hf (Array.not_mem_empty f)
  | tail _ hst ih => exact ih.step hst

end Session

end ObjectMachine
