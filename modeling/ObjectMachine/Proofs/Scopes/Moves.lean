import ObjectMachine.Proofs.Scopes.Sessions

/-!
# ObjectMachine.Proofs.Scopes.Moves

What a step of a session does to the objects, the names and the constants of its task.

* `Vm.Moves` — the collector may have run, and then the task has proceeded.
* `Machine.step_moves`, `Session.Step.active_moves` — so it is with every step of a call.
* `Session.begin_moves`, `Session.operation_moves` — and with what the embedding program does,
  unless it makes or changes objects by hand.
* `Session.StepBy` — the steps in which what is made by hand meets given conditions.
* `Vm.Lasts` — what collections, actions and things made by hand keep; every such run keeps it.
* `Vm.boot_proceeds` — a new task has proceeded from one whose built-in classes have no methods.
-/

namespace ObjectMachine

open ObjectMachine.Action

/-- What a step makes of a task: the collector may have run, and the task has proceeded. -/
def Vm.Moves (R : Payload → Payload → Prop) (v v' : Vm) : Prop :=
  ∃ u, v.Swept u ∧ v.heap.Sweeps u.heap ∧ u.Proceeds R v'

theorem Vm.Swept.refl {v : Vm} (h : v.Live) : v.Swept v :=
  ⟨rfl, .refl _, h.heap, h.roots⟩

namespace Vm.Moves

variable {R : Payload → Payload → Prop} {v v' v'' : Vm}

theorem of_proceeds (hlive : v.Live) (h : v.Proceeds R v') : v.Moves R v' :=
  ⟨v, .refl hlive, .inl rfl, h⟩

theorem of_acts {α : Type} (hlive : v.Live) (a : Action α) [ha : Acts R a] :
    v.Moves R (final (a v)) :=
  of_proceeds hlive (ha.works v hlive.heap.freeList).toProceeds

theorem of_same (h : v.Moves R v') (hs : v''.Same v') : v.Moves R v'' := by
  obtain ⟨u, hswept, hsweeps, hp⟩ := h
  exact ⟨u, hswept, hsweeps, hp.of_same hs⟩

theorem unfolds (h : v.Moves R v') : v.heap.Unfolds (fun _ => R) v'.heap := by
  obtain ⟨u, -, hsweeps, hp⟩ := h
  exact ⟨u.heap, hsweeps, hp.heap⟩

end Vm.Moves

/-! ## Steps of calls -/

section Calls

variable {R : Payload → Payload → Prop} [Gentle R]

namespace Vm

variable {vm : Vm}

/-- The collector runs first. -/
theorem collect_bind_moves {α : Type} (hlive : vm.Live) (f : Nat → Action α)
    [hf : ∀ n, Adds (f n)] : vm.Moves R (final ((collect >>= f) vm)) := by
  obtain ⟨n, u, hrun, hswept⟩ := collect_swept hlive.heap hlive.roots
  have hsweeps := (collect_sweeps vm).1
  rw [hrun] at hsweeps
  rw [bind_ok hrun]
  exact ⟨u, hswept, hsweeps, ((hf n).works u hswept.sound.freeList).weaken.toProceeds⟩

/-- The native functions change what `Payload.Changes` says, but for the one that sets a slot of an
object. -/
theorem runNative_moves (hR : ∀ p q, Payload.Changes True p q → R p q) (hlive : vm.Live)
    (f : Native) (args : List Ref) (hslot : f = .slotSet → Acts R (runNative .slotSet args)) :
    vm.Moves R (final (runNative f args vm)) := by
  by_cases hcollect : f = .collect
  · subst hcollect
    cases args with
    | nil => exact collect_bind_moves hlive fun freed => do
      return Reply.value (← newLength freed)
    | cons r rest => exact .of_proceeds hlive (.refl hlive.heap.freeList)
  · by_cases hset : f = .slotSet
    · subst hset
      have := hslot rfl
      exact .of_acts hlive _
    · have := (Acts.runNative True hcollect hset args).mono hR
      exact .of_acts hlive _

theorem call_moves (hR : ∀ p q, Payload.Changes True p q → R p q) (hlive : vm.Live) (callee : Ref)
    (args : List Ref)
    (hslot : ∀ b, vm.heap.payload callee = .ok (.method b) → b.body = .native .slotSet →
      ∀ args, Acts R (runNative .slotSet args)) :
    vm.Moves R (final (call callee args vm)) := by
  have hf := hlive.heap.freeList
  cases calls hf callee args with
  | native hm hbody hrun =>
    rw [hrun]
    exact runNative_moves hR hlive _ _ fun heq => hslot _ hm (heq ▸ hbody) _
  | enters hrun =>
    rw [hrun]
    exact .of_proceeds hlive (((enterLoop_proceeds hf callee args).mono hR).bindAdds)
  | adds hworks => exact .of_proceeds hlive hworks.weaken.toProceeds

end Vm

/-- The machine is about to call the native function that sets a slot of an object. -/
def Machine.SetsSlot (m : Machine) : Prop :=
  ∃ callee args b, m.mode = .calling callee args ∧ m.vm.heap.payload callee = .ok (.method b) ∧
    b.body = .native .slotSet

theorem Machine.step_moves {m : Machine} (hR : ∀ p q, Payload.Changes True p q → R p q)
    (hlive : m.vm.Live) (hslot : m.SetsSlot → ∀ args, Acts R (Vm.runNative .slotSet args)) :
    m.vm.Moves R (Session.ofOutcome m.step).vm := by
  have hdoes := does_step hlive
  generalize Session.ofOutcome m.step = t at hdoes
  cases hdoes with
  | @performs u floor _ _ _ _ _ htick hswept hfs =>
    have hp := (Vm.performIn_proceeds hswept.sound.freeList floor).mono hR
    exact ⟨u, hswept, (Vm.tick_sweeps htick).1, hp.of_same (Session.continueWith_same hfs)⟩
  | @calls callee args hmode =>
    refine (Vm.call_moves hR hlive callee args fun b hb hbody => ?_).of_same
      (Session.continueWith_same (ofReply_same m.konts))
    exact hslot ⟨callee, args, b, hmode, hb, hbody⟩
  | adds hworks => exact .of_proceeds hlive hworks.weaken.toProceeds

namespace Session

omit [Gentle R] in
theorem Step.of_next {m m' : Machine} (h : m.step = .next m') :
    (active m).Step (.active m') := by
  have hst : (active m).Step (.ofOutcome m.step) := .step
  rwa [h] at hst

theorem collecting_moves {m : Machine} (hlive : m.vm.Live) : m.vm.Moves R (collecting m).vm := by
  obtain ⟨n, u, hrun, hswept⟩ := Vm.collect_swept hlive.heap hlive.roots
  have hsweeps := (Vm.collect_sweeps m.vm).1
  unfold collecting
  rw [hrun] at hsweeps ⊢
  exact ⟨u, hswept, hsweeps, .refl hswept.sound.freeList⟩

/-- A step of a call. -/
theorem Step.active_moves {m : Machine} {t : Session}
    (hR : ∀ p q, Payload.Changes True p q → R p q) (hlive : m.vm.Live)
    (hslot : m.SetsSlot → ∀ args, Acts R (Vm.runNative .slotSet args))
    (hst : (active m).Step t) : m.vm.Moves R t.vm := by
  cases hst with
  | step => exact Machine.step_moves hR hlive hslot
  | answer a _ =>
    exact .of_proceeds hlive
      (continueWith_adds hlive.heap.freeList fun _ vm => .refl vm).weaken.toProceeds
  | collectWithin _ => exact collecting_moves hlive

/-- A slot of an object is the only thing that changes in another way. -/
theorem Step.active_becomes {m : Machine} {t : Session} (hlive : m.vm.Live)
    (hst : (active m).Step t) : m.vm.Moves (Payload.Becomes True) t.vm :=
  hst.active_moves (fun _ _ => Payload.Changes.becomes) hlive fun _ => Acts.runSlotSet True

end Session
end Calls

/-! ## The embedding program -/

namespace Session

variable {vm : Vm}

theorem begin_moves (hlive : vm.Live) (entry : Entry) :
    vm.Moves (Payload.Changes True) (ofOutcome (entry.begin vm)).vm := by
  have hf := hlive.heap.freeList
  cases entry with
  | bytecode method args =>
    exact .of_proceeds hlive ((Vm.enterLoop_proceeds hf method args).of_same
      (continueWith_same fun _ vm => .refl vm))
  | _ => exact .of_proceeds hlive (.refl hf)

theorem collect_moves (hlive : vm.Live) :
    vm.Moves (Payload.Changes True) (ofResult (Vm.collect vm)).vm := by
  obtain ⟨n, u, hrun, hswept⟩ := Vm.collect_swept hlive.heap hlive.roots
  have hsweeps := (Vm.collect_sweeps vm).1
  rw [hrun] at hsweeps ⊢
  exact ⟨u, hswept, hsweeps, .refl hswept.sound.freeList⟩

/-- An operation that sets no contents and makes no method. -/
theorem operation_moves (hlive : vm.Live) {c : Operation} (hmethod : ∀ unit, c ≠ .method unit)
    (hedits : ¬ c.Edits) (operands : List Ref) :
    vm.Moves (Payload.Changes True) (ofResult (c.run operands vm)).vm := by
  have := Acts.operation (A := True) (fun _ => trivial) hmethod hedits operands
  rw [ofResult_vm]
  exact .of_acts hlive _

/-- The same but for names of modules. -/
theorem operation_becomes (hlive : vm.Live) {c : Operation} (hmethod : ∀ unit, c ≠ .method unit)
    (hlocal : ∀ name, c ≠ .addLocal name) (operands : List Ref) :
    vm.Moves (Payload.Becomes True) (ofResult (c.run operands vm)).vm := by
  have := Acts.operationBecomes (A := True) (fun _ => trivial) hmethod hlocal operands
  rw [ofResult_vm]
  exact .of_acts hlive _

end Session

/-! ## Runs with conditions on what is made by hand -/

/-- A step in which the embedding program gives an object that it makes by hand contents that `fits`
allows, and performs an operation on references for which `accepts` allows it. -/
inductive Session.StepBy (fits : Vm → Payload → Prop)
    (accepts : Vm → Operation → List Ref → Prop) : Session → Session → Prop where
  | operation {vm : Vm} (c : Operation) {operands : List Ref} :
      (∀ r ∈ operands, vm.heap.contains r = true) → accepts vm c operands →
      StepBy fits accepts (.idle vm) (.ofResult (c.run operands vm))
  | alloc {vm : Vm} {cls : Ref} {p : Payload} : vm.heap.Admits cls p → fits vm p →
      StepBy fits accepts (.idle vm) (.ofResult (Vm.alloc cls p vm))
  /-- Other permanent or temporary roots. -/
  | roots {vm : Vm} {roots temps : List Ref} :
      Step (.idle vm) (.idle { vm with heap := { vm.heap with roots := roots }, temps := temps }) →
      StepBy fits accepts (.idle vm)
        (.idle { vm with heap := { vm.heap with roots := roots }, temps := temps })
  | collect {vm : Vm} : StepBy fits accepts (.idle vm) (.ofResult (Vm.collect vm))
  | begin {vm : Vm} (entry : Entry) : (∀ r ∈ entry.refs, vm.heap.contains r = true) →
      StepBy fits accepts (.idle vm) (.ofOutcome (entry.begin vm))
  | active {m : Machine} {t : Session} : Step (.active m) t → StepBy fits accepts (.active m) t

/-- A run of such steps. -/
def Session.ReachesBy (fits : Vm → Payload → Prop) (accepts : Vm → Operation → List Ref → Prop) :
    Session → Session → Prop :=
  Relation.ReflTransGen (Session.StepBy fits accepts)

section By

variable {fits : Vm → Payload → Prop} {accepts : Vm → Operation → List Ref → Prop}

theorem Session.StepBy.step {s t : Session} (h : s.StepBy fits accepts t) : s.Step t := by
  cases h with
  | operation c hlive _ => exact .operation c hlive
  | alloc ha _ => exact .alloc ha
  | roots hst => exact hst
  | collect => exact .collect
  | begin entry hrefs => exact .begin entry hrefs
  | active hst => exact hst

theorem Session.ReachesBy.reaches {s t : Session} (h : s.ReachesBy fits accepts t) : s.Reaches t :=
  Relation.ReflTransGen.mono (fun _ _ => StepBy.step) _ _ h

/-- What holds of a new task and is kept by every such step holds all along. -/
theorem Session.ReachesBy.invariant {I : Vm → Prop} {registry : Registry} {config : Config}
    {heap : Nat} {task : TaskId} {s : Session} (hboot : I (Vm.boot registry config heap task))
    (hstep : ∀ s t : Session, s.Live → s.StepBy fits accepts t → I s.vm → I t.vm)
    (hs : (boot registry config heap task).ReachesBy fits accepts s) : s.Orderly ∧ I s.vm := by
  induction hs with
  | refl => exact ⟨orderly registry config heap task .refl, hboot⟩
  | tail _ hst ih => exact ⟨ih.1.step hst.step, hstep _ _ ih.1.live hst ih.2⟩

/-- A property that lasts: it is kept by collections, by what tasks do, and by what the embedding
program may make by hand. -/
structure Vm.Lasts (fits : Vm → Payload → Prop) (accepts : Vm → Operation → List Ref → Prop)
    (I : Vm → Prop) : Prop where
  swept : ∀ {v u : Vm}, I v → v.Swept u → I u
  proceeds : ∀ {R : Payload → Payload → Prop} [Gentle R] {v v' : Vm}, I v → v.Proceeds R v' → I v'
  place : ∀ {v : Vm} {p : Payload} (k : Ref), I v → v.heap.FreeList → fits v p →
    I { v with heap := (v.heap.place ⟨k, p⟩).2 }
  addLocal : ∀ {v : Vm} {name : String} {r x : Ref}, I v → accepts v (.addLocal name) [r, x] →
    I { v with heap := v.heap.update r (Payload.addLocal name x) }
  roots : ∀ {v : Vm} {roots temps : List Ref}, I v →
    I { v with heap := { v.heap with roots := roots }, temps := temps }
  /-- A method gets a module, if anything. -/
  module : ∀ {v : Vm} {unit : CodeUnit} {r : Ref}, accepts v (.method unit) [r] →
    v.heap.IsModule r

namespace Vm.Lasts

variable {I : Vm → Prop} {vm : Vm}

theorem moves (hI : Lasts fits accepts I) {R : Payload → Payload → Prop} [Gentle R] {v v' : Vm}
    (h : I v) (hm : v.Moves R v') : I v' := by
  obtain ⟨u, hswept, -, hp⟩ := hm
  exact hI.proceeds (hI.swept h hswept) hp

/-- A method with a module that is one, or without. -/
theorem methodOperation (hI : Lasts fits accepts I) (h : I vm) (hlive : vm.Live) (unit : CodeUnit)
    {operands : List Ref} (ha : accepts vm (.method unit) operands) :
    I (Session.ofResult ((Operation.method unit).run operands vm)).vm := by
  have hf := hlive.heap.freeList
  have hmake : ∀ module, (∀ r, module = some r → vm.heap.IsModule r) →
      vm.Proceeds Eq (final (Operands.single (Vm.newBytecodeMethod unit module) vm)) :=
    fun module hmodule =>
      (newBytecodeMethod_yields (.refl hf) unit fun _ => hmodule).works.toProceeds.bindAdds
  rw [Session.ofResult_vm]
  rcases operands with _ | ⟨r, _ | ⟨s, rest⟩⟩
  · exact hI.proceeds h (hmake none nofun)
  · refine hI.proceeds h (hmake (some r) ?_)
    rintro _ ⟨⟩
    exact hI.module ha
  · exact h

theorem addLocalOperation (hI : Lasts fits accepts I) (h : I vm) (name : String)
    {operands : List Ref} (ha : accepts vm (.addLocal name) operands) :
    I (Session.ofResult ((Operation.addLocal name).run operands vm)).vm := by
  rcases operands with _ | ⟨r, _ | ⟨x, _ | ⟨z, rest⟩⟩⟩
  · exact h
  · exact h
  · exact hI.addLocal h ha
  · exact h

theorem operation (hI : Lasts fits accepts I) (h : I vm) (hlive : vm.Live) (c : Operation)
    {operands : List Ref} (ha : accepts vm c operands) :
    I (Session.ofResult (c.run operands vm)).vm := by
  by_cases hmethod : ∃ unit, c = .method unit
  · obtain ⟨unit, rfl⟩ := hmethod
    exact hI.methodOperation h hlive unit ha
  · by_cases hlocal : ∃ name, c = .addLocal name
    · obtain ⟨name, rfl⟩ := hlocal
      exact hI.addLocalOperation h name ha
    · exact hI.moves h (Session.operation_becomes hlive (fun unit hc => hmethod ⟨unit, hc⟩)
        (fun name hc => hlocal ⟨name, hc⟩) operands)

theorem alloc (hI : Lasts fits accepts I) (h : I vm) (hf : vm.heap.FreeList) (k : Ref)
    {p : Payload} (hp : fits vm p) : I (Session.ofResult (Vm.alloc k p vm)).vm := by
  rw [Session.ofResult_vm]
  unfold Vm.alloc
  cases vm.heap.checkOwn k with
  | error e => exact h
  | ok _ => exact hI.place k h hf hp

theorem step (hI : Lasts fits accepts I) {s t : Session} (h : I s.vm) (hlive : s.Live)
    (hst : s.StepBy fits accepts t) : I t.vm := by
  have hvm := hlive.vm_live
  cases hst with
  | operation c _ ha => exact hI.operation h hvm c ha
  | @alloc vm cls p _ hp => exact hI.alloc h hvm.heap.freeList cls hp
  | roots _ => exact hI.roots h
  | collect => exact hI.moves h (Session.collect_moves hvm)
  | begin entry _ => exact hI.moves h (Session.begin_moves hvm entry)
  | active hst => exact hI.moves h (hst.active_becomes hvm)

theorem reaches (hI : Lasts fits accepts I) {s t : Session} (h : I s.vm) (hlive : s.Live)
    (hst : s.ReachesBy fits accepts t) : I t.vm := by
  induction hst with
  | refl => exact h
  | tail hreach hst ih => exact hI.step ih (hlive.reaches (Session.ReachesBy.reaches hreach)) hst

end Vm.Lasts

/-- A machine that has not come to an end has taken its steps. -/
theorem Session.ReachesBy.run {s : Session} {m m' : Machine} {fuel : Nat}
    (hs : s.ReachesBy fits accepts (.active m)) (hrun : m.run fuel = .next m') :
    s.ReachesBy fits accepts (.active m') := by
  induction fuel generalizing m with
  | zero =>
    cases hrun
    exact hs
  | succ fuel ih =>
    unfold Machine.run at hrun
    cases hstep : m.step with
    | next m₁ =>
      rw [hstep] at hrun
      exact ih (hs.tail (.active (.of_next hstep))) hrun
    | _ =>
      rw [hstep] at hrun
      cases hrun

/-- A call of a method over a unit in a new task, after a number of steps. -/
def Session.callOf? (unit : CodeUnit) (steps : Nat) : Option Machine :=
  match (Operation.method unit).run [] (Vm.boot {} {} 0 ⟨0, 0⟩) with
  | .ok [r] vm =>
    if vm.heap.contains r then
      match Entry.begin vm (.bytecode r []) with
      | .next m =>
        match m.run steps with
        | .next m' => some m'
        | _ => none
      | _ => none
    else none
  | _ => none

theorem Session.callOf?_reaches {unit : CodeUnit} {steps : Nat} {m : Machine}
    (h : callOf? unit steps = some m)
    (haccepts : accepts (Vm.boot {} {} 0 ⟨0, 0⟩) (.method unit) []) :
    (boot {} {} 0 ⟨0, 0⟩).ReachesBy fits accepts (.active m) := by
  unfold callOf? at h
  split at h
  case h_2 => cases h
  rename_i r vm hmethod
  have hnone : ∀ r ∈ ([] : List Ref), (Vm.boot {} {} 0 ⟨0, 0⟩).heap.contains r = true := by simp
  have hmake : StepBy fits accepts (boot {} {} 0 ⟨0, 0⟩) (.ofResult _) :=
    .operation (.method unit) hnone haccepts
  rw [hmethod] at hmake
  split at h
  case isFalse => cases h
  rename_i hlive
  split at h
  case h_2 => cases h
  rename_i m₁ hbegin
  have hcall : StepBy fits accepts (.idle vm) (.ofOutcome _) :=
    .begin (.bytecode r []) (by simpa [Entry.refs] using hlive)
  rw [hbegin] at hcall
  split at h
  case h_2 => cases h
  rename_i m₂ hrun
  cases h
  exact Session.ReachesBy.run (.head hmake (.single hcall)) hrun

end By

/-! ## New tasks -/

namespace Vm

variable {v vm : Vm}

theorem Proceeds.foldl {β : Type} {g : Vm → β → Vm} (bs : List β)
    (hg : ∀ (vm : Vm) b, vm.heap.FreeList → vm.Proceeds (Payload.Becomes True) (g vm b))
    (h : v.Proceeds (Payload.Becomes True) vm) :
    v.Proceeds (Payload.Becomes True) (bs.foldl g vm) := by
  induction bs generalizing vm with
  | nil => exact h
  | cons b bs ih =>
    have hstep := hg vm b h.heap.freeList
    exact ih (h.trans_of hstep fun _ _ _ => Payload.Becomes.trans)

/-- A native function has no names. -/
theorem placeNative_proceeds (hf : vm.heap.FreeList) (name : String) (f : Native) :
    vm.Proceeds Eq
      { vm with
        heap := (vm.heap.placeBuiltin .method (.method { name := name, body := .native f })).2 } :=
  (Proceeds.refl hf).place _ (fun _ => .method .empty (by rintro _ ⟨⟩)) (by rintro _ ⟨⟩)
    (by rintro - _ ⟨⟩; exact .native f) rfl

theorem bootMethod_proceeds (hf : vm.heap.FreeList) (k : Builtin) (name : String) (f : Native) :
    vm.Proceeds (Payload.Becomes True) (vm.bootMethod k name f) := by
  have hplace := placeNative_proceeds hf name f
  have hupdate : ∀ r m, Acts (Payload.Becomes True)
      (Action.modifyHeap fun h => h.update r (Payload.addMethod name m)) := fun r m =>
    Acts.update r (.addMethod name m) fun _ _ _ => Payload.binds_addMethod
  exact ((hupdate _ _).works _ hplace.heap.freeList).toProceeds.after hplace

theorem bootGlobal_proceeds (hf : vm.heap.FreeList) (name : String) (f : Native) :
    vm.Proceeds (Payload.Becomes True) (vm.bootGlobal name f) :=
  ((placeNative_proceeds hf name f).mono fun p _ heq => heq ▸ .same p).of_same ⟨rfl, rfl, rfl⟩

theorem Proceeds.withLog {R : Payload → Payload → Prop} (h : v.Proceeds R vm) (log : List String) :
    v.Proceeds R { vm with log := log } :=
  h.of_same ⟨rfl, rfl, rfl⟩

/-- A task with the built-in classes, before they are given methods. -/
def bare (registry : Registry) (config : Config) (heap : Nat) (task : TaskId) : Vm where
  heap := Heap.boot heap config
  task := task
  config := config
  registry := registry
  classes := ⟨Builtin.registered.map fun k => (k.name, k.ref heap)⟩

theorem bare_payload {registry : Registry} {config : Config} {heap : Nat} {task : TaskId} {r : Ref}
    {p : Payload} (hp : (bare registry config heap task).heap.payload r = .ok p) :
    (∃ c, p = .cls c) ∨ p = .nil ∨ ∃ b, p = .bool b := by
  obtain ⟨k, hget⟩ := Heap.payload_eq_ok_iff.mp hp
  rcases Heap.boot_cases hget with ⟨k, -, heq⟩ | ⟨-, heq⟩ | ⟨b, -, heq⟩
  · exact .inl ⟨_, congrArg Obj.payload heq⟩
  · exact .inr (.inl (congrArg Obj.payload heq))
  · exact .inr (.inr ⟨b, congrArg Obj.payload heq⟩)

theorem boot_proceeds (registry : Registry) (config : Config) (heap : Nat) (task : TaskId) :
    (bare registry config heap task).Proceeds (Payload.Becomes True)
      (boot registry config heap task) := by
  have hbare : (bare registry config heap task).Proceeds (Payload.Becomes True)
      (bare registry config heap task) :=
    .refl (Heap.boot_sound heap config).freeList
  have hmethods := Proceeds.foldl
    (g := fun vm k => k.methods.foldl (fun vm (m : String × Native) => vm.bootMethod k m.1 m.2) vm)
    Builtin.all
    (fun vm k hf => .foldl k.methods (fun _ m hf => bootMethod_proceeds hf k m.1 m.2) (.refl hf))
    hbare
  have hglobals := Proceeds.foldl
    (g := fun vm (g : String × Native) => vm.bootGlobal g.1 g.2)
    Native.globals (fun _ g hf => bootGlobal_proceeds hf g.1 g.2) hmethods
  unfold boot
  dsimp only
  split
  · exact hglobals.withLog _
  · exact hglobals

end Vm

end ObjectMachine
