import ObjectMachine.Proofs.Host.Operations
import ObjectMachine.Proofs.Machine.Balance
import ObjectMachine.Proofs.Renaming.Boot
import ObjectMachine.Vm.Embedding

/-!
# ObjectMachine.Proofs.Host.Liveness

No reference of a task ever dangles.

A state without dangling references is one that is related to itself by the renaming that gives
every live object its own name. So whatever leads from related states to related states keeps the
references of one task alive.

* `Vm.Live`, `Machine.Live` — what is held is there.
* `Session` — a task and the embedding program that uses it.
* `Session.Step` — what the program can do, and what the task does by itself.
* `Session.Live.step` — one step keeps everything alive.
* `Session.references_live` — so does every sequence of steps, and no step fails over a reference.
-/

namespace ObjectMachine

/-! ## Live tasks -/

/-- Every live object stands for itself. -/
def Heap.itself (h : Heap) : Renaming :=
  fun a b => a = b ∧ h.contains a = true

theorem Heap.itself_all {h : Heap} {rs : List Ref} (hrs : ∀ r ∈ rs, h.contains r = true) :
    List.Forall₂ h.itself rs rs :=
  List.forall₂_same.mpr fun r hr => ⟨rfl, hrs r hr⟩

theorem Heap.Sound.related_itself {h : Heap} (hs : h.Sound) : h.Related h.itself h := by
  have hperm : ∀ {r}, r ∈ permanentRoots h.id → h.itself r r := fun hr => ⟨rfl, hs.permanent_live hr⟩
  refine { unique := ⟨?_, ?_⟩, objects := ?_, builtin := ?_, nil := ?_, bool := ?_,
           left := hs, right := hs, nesting := rfl }
  · rintro _ _ _ ⟨rfl, -⟩ ⟨rfl, -⟩
    rfl
  · rintro _ _ _ ⟨rfl, -⟩ ⟨rfl, -⟩
    rfl
  · rintro a _ ⟨rfl, ha⟩
    obtain ⟨o, ho⟩ := contains_iff.mp ha
    obtain ⟨hcls, hrefs⟩ := hs.closed a o ho
    exact ⟨o, o, ho, ho, ⟨rfl, hcls⟩, .same fun x hx => ⟨rfl, hrefs x hx⟩⟩
  · intro k
    exact hperm (by cases k <;> simp [permanentRoots, Builtin.registered])
  · exact hperm (by simp [permanentRoots])
  · intro b
    exact hperm (by cases b <;> simp [permanentRoots])

/-- The references that a task holds are live, and so are those in its heap. -/
structure Vm.Live (v : Vm) : Prop where
  heap : v.heap.Sound
  roots : ∀ r ∈ v.roots, v.heap.contains r = true

theorem Vm.Related.live {ρ : Renaming} {v w : Vm} (h : v.Related ρ w) : v.Live :=
  ⟨h.heap.left, h.roots_live.1⟩

theorem Vm.Live.related {v : Vm} (h : v.Live) : v.Related v.heap.itself v where
  heap := h.heap.related_itself
  task := rfl
  config := ⟨rfl, rfl, rfl, rfl⟩
  registry := rfl
  stack := Heap.itself_all fun r hr => h.roots r (mem_roots_stack hr)
  frames := List.forall₂_same.mpr fun f hf => by
    have hrefs := fun r hr => h.roots r (mem_roots_frame hf hr)
    exact ⟨⟨rfl, hrefs _ (by simp)⟩, ⟨rfl, hrefs _ (by simp)⟩, ⟨rfl, hrefs _ (by simp)⟩,
      optionRel_same fun x hx => ⟨rfl, hrefs x (by simp [Option.mem_def.mp hx])⟩, rfl, rfl, rfl⟩
  temps := Heap.itself_all fun r hr => h.roots r (mem_roots_temps hr)
  classes := .same fun r hr => ⟨rfl, h.roots r (mem_roots_classes hr)⟩
  globals := .same fun r hr => ⟨rfl, h.roots r (mem_roots_globals hr)⟩
  modules := .same fun r hr => ⟨rfl, h.roots r (mem_roots_modules hr)⟩
  loops := rfl
  output := rfl

/-- The references that a mode has in its hands. -/
def Mode.refs : Mode → List Ref
  | .calling callee args => callee :: args
  | .constructing cls args => cls :: args
  | .returning value => [value]
  | .raising (.panic value) => [value]
  | _ => []

structure Machine.Live (m : Machine) : Prop where
  vm : m.vm.Live
  holds : m.vm.heap.Holds m.konts m.vm.temps
  mode : ∀ r ∈ m.mode.refs, m.vm.heap.contains r = true

theorem Mode.Related.live {ρ : Renaming} {h h' : Heap} (hr : h.Related ρ h') {m n : Mode}
    (hmn : m.Related ρ n) : ∀ r ∈ m.refs, h.contains r = true := by
  have hall : ∀ {xs ys}, List.Forall₂ ρ xs ys → ∀ r ∈ xs, h.contains r = true := by
    intro xs ys hxy r hmem
    obtain ⟨s, -, hrs⟩ := forall₂_mem_left hxy hmem
    exact hr.live_left hrs
  cases hmn with
  | calling hrs hargs => exact hall (.cons hrs hargs)
  | constructing hrs hargs => exact hall (.cons hrs hargs)
  | returning hrs => exact hall (.cons hrs .nil)
  | @raising e _ he =>
    cases he with
    | panic hrs => exact hall (.cons hrs .nil)
    | same he =>
      intro r hmem
      cases e with
      | panic v => exact absurd rfl (he v)
      | _ => cases hmem
  | _ => exact fun r hmem => nomatch hmem

theorem Machine.Related.live {ρ : Renaming} {m n : Machine} (h : m.Related ρ n) : m.Live :=
  ⟨h.resting.vm.live, h.resting.holds, h.mode.live h.resting.vm.heap⟩

theorem Mode.related_itself {h : Heap} {m : Mode} (hm : ∀ r ∈ m.refs, h.contains r = true) :
    m.Related h.itself m := by
  cases m with
  | running => exact .running
  | calling callee args =>
    have hall := List.forall₂_cons.mp (Heap.itself_all hm)
    exact .calling hall.1 hall.2
  | constructing cls args =>
    have hall := List.forall₂_cons.mp (Heap.itself_all hm)
    exact .constructing hall.1 hall.2
  | returning v => exact .returning ⟨rfl, hm v List.mem_cons_self⟩
  | raising e =>
    refine .raising ?_
    cases e with
    | panic v => exact .panic ⟨rfl, hm v List.mem_cons_self⟩
    | _ => exact .same nofun
  | waiting request => exact .waiting request

theorem Heap.Holds.related_itself {h : Heap} (hs : h.Sound) {konts : List Kont} {temps : List Ref}
    (hh : h.Holds konts temps) : List.Forall₂ (Kont.Related h.itself) konts konts := by
  induction konts generalizing temps with
  | nil => exact .nil
  | cons k konts ih =>
    cases k with
    | fill obj =>
      cases temps with
      | nil => exact hh.elim
      | cons t temps => exact .cons (.fill ⟨rfl, hs.binds_live hh.1⟩) (ih hh.2)
    | _ => exact .cons (by constructor) (ih hh)

theorem Machine.Live.related {m : Machine} (h : m.Live) : m.Related m.vm.heap.itself m :=
  ⟨⟨h.vm.related, h.holds.related_itself h.vm.heap, h.holds⟩, Mode.related_itself h.mode⟩

/-! ## Sessions -/

/-- A task and the program that uses it. -/
inductive Session where
  /-- The program may use the task. -/
  | idle (vm : Vm)
  /-- A call is going on. -/
  | active (m : Machine)
  /-- The system has come to its end. -/
  | ended (vm : Vm) (stop : Stop)

namespace Session

def vm : Session → Vm
  | idle vm => vm
  | active m => m.vm
  | ended vm _ => vm

/-- After an operation of the program. An error that it raises leaves the task usable. -/
def ofResult {α : Type} : EStateM.Result Stop Vm α → Session
  | .ok _ vm => idle vm
  | .error (.raised _) vm => idle vm
  | .error stop vm => ended vm stop

def ofOutcome : Outcome → Session
  | .next m => active m
  | .done vm _ => idle vm
  | .blocked m _ => active m
  | .fatal vm f => ended vm (.fatal f)
  | .crashed vm => ended vm .crashed

def collecting (m : Machine) : Session :=
  match Vm.collect m.vm with
  | .ok _ vm => active { m with vm := vm }
  | .error stop vm => ended vm stop

def boot (registry : Registry) (config : Config) (heap : Nat) (task : TaskId) : Session :=
  idle (Vm.boot registry config heap task)

end Session

/-- Where a call can be interrupted by the collector: between two instructions, and while it waits
for another task. -/
def Machine.AtSafePoint (m : Machine) : Prop :=
  m.mode = .running ∨ ∃ request, m.mode = .waiting request

def Entry.refs : Entry → List Ref
  | .call callee args => callee :: args
  | .invoke callee args => callee :: args
  | .bytecode method args => method :: args
  | .instantiate cls args => cls :: args

/-- What can happen next. The program uses live references only, and keeps the permanent roots. -/
inductive Session.Step : Session → Session → Prop where
  | operation {vm : Vm} (c : Operation) {operands : List Ref} :
      (∀ r ∈ operands, vm.heap.contains r = true) →
      Step (.idle vm) (.ofResult (c.run operands vm))
  /-- An object of any class that traces it. -/
  | alloc {vm : Vm} {cls : Ref} {p : Payload} : vm.heap.Admits cls p →
      Step (.idle vm) (.ofResult (Vm.alloc cls p vm))
  | pushTemp {vm : Vm} {r : Ref} : vm.heap.contains r = true →
      Step (.idle vm) (.ofResult (Vm.pushTemp r vm))
  | popTemp {vm : Vm} : Step (.idle vm) (.ofResult (Vm.popTemp vm))
  | addRoot {vm : Vm} {r : Ref} : vm.heap.contains r = true →
      Step (.idle vm) (.ofResult (Vm.addRoot r vm))
  | removeRoot {vm : Vm} {r : Ref} :
      (∀ p ∈ Heap.permanentRoots vm.heap.id, p ∈ vm.heap.roots.erase r) →
      Step (.idle vm) (.ofResult (Vm.removeRoot r vm))
  | collect {vm : Vm} : Step (.idle vm) (.ofResult (Vm.collect vm))
  | begin {vm : Vm} (entry : Entry) : (∀ r ∈ entry.refs, vm.heap.contains r = true) →
      Step (.idle vm) (.ofOutcome (entry.begin vm))
  | step {m : Machine} : Step (.active m) (.ofOutcome m.step)
  | answer {m : Machine} {request : Request} (a : Machine.Answer) : m.mode = .waiting request →
      Step (.active m) (.ofOutcome (m.resume a))
  | collectWithin {m : Machine} : m.AtSafePoint → Step (.active m) (.collecting m)

def Session.Reaches : Session → Session → Prop :=
  Relation.ReflTransGen Session.Step

/-! ## Sessions keep their references alive -/

/-- A failure over a reference: it is stale, or of another heap. -/
def Fatal.Dangling (f : Fatal) : Prop :=
  (∃ r, f = .collected r) ∨ ∃ r heap, f = .foreign r heap

theorem Fatal.Related.not_dangling {ρ : Renaming} {f g : Fatal} (h : f.Related ρ g) :
    ¬ f.Dangling := by
  rintro (⟨r, rfl⟩ | ⟨r, heap, rfl⟩)
  · cases h with
    | same h => cases h
  · cases h with
    | same h => cases h

namespace Session

/-- What is held is live, and the end did not come over a reference. -/
def Live : Session → Prop
  | idle vm => vm.Live
  | active m => m.Live
  | ended vm stop => vm.Live ∧ ∀ f, stop = .fatal f → ¬ f.Dangling

theorem live_ofResult {α β : Type} {ρ : Renaming} {v : Vm} {R : Renaming → Vm → α → β → Prop}
    {x : EStateM.Result Stop Vm α} {y : EStateM.Result Stop Vm β} (h : Ends ρ v R x y) :
    (ofResult x).Live := by
  cases h with
  | ok _ hvw _ _ => exact hvw.live
  | error _ hvw _ he =>
    cases he with
    | raised _ => exact hvw.live
    | fatal hf =>
      refine ⟨hvw.live, ?_⟩
      rintro f ⟨⟩
      exact hf.not_dangling
    | crashed => exact ⟨hvw.live, nofun⟩

theorem live_ofOutcome {o p : Outcome} (h : o.Related p) : (ofOutcome o).Live := by
  cases h with
  | next h => exact h.live
  | value h _ => exact h.live
  | error h _ => exact h.live
  | blocked _ h => exact h.live
  | fatal h hf =>
    refine ⟨h.live, ?_⟩
    rintro f ⟨⟩
    exact hf.not_dangling
  | crashed h => exact ⟨h.live, nofun⟩

end Session

theorem Heap.Sound.withRoots {h : Heap} (hs : h.Sound) {roots : List Ref}
    (hlive : ∀ r ∈ roots, h.contains r = true) (hperm : ∀ r ∈ permanentRoots h.id, r ∈ roots) :
    Heap.Sound { h with roots := roots } := by
  have hkeep : h.KeepsClasses { h with roots := roots } := fun x c hc => ⟨c, hc, rfl, rfl⟩
  refine ⟨hs.closed, ?_, ?_, hs.slots, hs.builtin, ⟨hs.freeList.empty, hs.freeList.nodup⟩, hlive,
    hperm⟩
  · exact fun r o ho => (hs.traces r o ho).mono hkeep
  · intro r c hc
    obtain ⟨cs, hl⟩ := hs.lineage r c hc
    obtain ⟨cs', hl', -⟩ := hl.mono hkeep
    exact ⟨cs', hl'⟩

namespace Vm.Live

variable {v v₁ : Vm} {r : Ref}

theorem swept (hv : v.Swept v₁) : v₁.Live := by
  refine ⟨hv.sound, ?_⟩
  have hroots : v₁.roots = v.roots := by rw [hv.state]; rfl
  rw [hroots]
  exact hv.live

theorem pushTemp (h : v.Live) (hr : v.heap.contains r = true) :
    Vm.Live { v with temps := r :: v.temps } :=
  Vm.Related.live (ρ := v.heap.itself) (w := { v with temps := r :: v.temps })
    { h.related with temps := .cons ⟨rfl, hr⟩ h.related.temps }

theorem popTemp (h : v.Live) : Vm.Live { v with temps := v.temps.tail } := by
  have htemps : List.Forall₂ v.heap.itself v.temps.tail v.temps.tail := by
    rw [← List.drop_one]
    exact List.forall₂_drop 1 h.related.temps
  exact Vm.Related.live (ρ := v.heap.itself) (w := { v with temps := v.temps.tail })
    { h.related with temps := htemps }

theorem withRoots (h : v.Live) {roots : List Ref} (hlive : ∀ r ∈ roots, v.heap.contains r = true)
    (hperm : ∀ r ∈ Heap.permanentRoots v.heap.id, r ∈ roots) :
    Vm.Live { v with heap := { v.heap with roots := roots } } :=
  ⟨h.heap.withRoots hlive hperm, h.roots⟩

end Vm.Live

namespace Session.Live

theorem begin {vm : Vm} (h : vm.Live) (entry : Entry)
    (hrefs : ∀ r ∈ entry.refs, vm.heap.contains r = true) :
    (Session.ofOutcome (entry.begin vm)).Live := by
  cases entry with
  | call callee args => exact ⟨h, trivial, hrefs⟩
  | invoke callee args => exact ⟨h, trivial, hrefs⟩
  | instantiate cls args => exact ⟨h, trivial, hrefs⟩
  | bytecode method args =>
    obtain ⟨hmethod, hargs⟩ := List.forall₂_cons.mp (Heap.itself_all hrefs)
    have hrest : Resting vm.heap.itself vm [] vm [] := ⟨h.related, .nil, trivial⟩
    have hrel : Outcome.Related (Entry.begin vm (.bytecode method args))
        (Entry.begin vm (.bytecode method args)) := by
      refine hrest.continueWith (Respects.enterLoop hmethod hargs vm vm h.related) ?_
      rintro σ - ⟨floor, base⟩ _ v' w' h' heq
      obtain rfl := heq
      exact ⟨{ h' with konts := .cons (.loop floor base) .nil }, .running⟩
    exact Session.live_ofOutcome hrel

theorem alloc {vm : Vm} (h : vm.Live) {cls : Ref} {p : Payload} (ha : vm.heap.Admits cls p) :
    (Session.ofResult (Vm.alloc cls p vm)).Live := by
  obtain ⟨c, hc⟩ := ha.traces.cls
  have hp : p.Related vm.heap.itself p := .same fun x hx => ⟨rfl, ha.refs x hx⟩
  exact Session.live_ofResult (Ends.alloc h.related ⟨rfl, Heap.cls_contains hc⟩ hp ha)

theorem addRoot {vm : Vm} (h : vm.Live) {r : Ref} (hr : vm.heap.contains r = true) :
    (Session.ofResult (Vm.addRoot r vm)).Live := by
  have hown : vm.heap.checkOwn r = .ok () := if_pos (Heap.contains_heap hr)
  unfold Vm.addRoot Heap.addRoot
  rw [hown]
  refine Vm.Live.withRoots h ?_ fun p hp => List.mem_cons_of_mem _ (h.heap.rooted p hp)
  intro x hx
  rcases List.mem_cons.mp hx with rfl | hx
  · exact hr
  · exact h.heap.root_live x hx

theorem collect {vm : Vm} (h : vm.Live) : (Session.ofResult (Vm.collect vm)).Live := by
  obtain ⟨n, v₁, hrun, hsw⟩ := Vm.collect_swept h.heap h.roots
  rw [hrun]
  exact Vm.Live.swept hsw

theorem collecting {m : Machine} (h : m.Live) (hsafe : m.AtSafePoint) :
    (Session.collecting m).Live := by
  obtain ⟨n, v₁, hrun, hsw⟩ := Vm.collect_swept h.vm.heap h.vm.roots
  unfold Session.collecting
  rw [hrun]
  have hrest := h.related.resting.swept hsw hsw
  refine Machine.Related.live (n := ⟨v₁, m.konts, m.mode⟩) ⟨hrest, ?_⟩
  show m.mode.Related _ m.mode
  rcases hsafe with hmode | ⟨request, hmode⟩
  · rw [hmode]
    exact .running
  · rw [hmode]
    exact .waiting request

theorem step {s t : Session} (h : s.Live) (hst : s.Step t) : t.Live := by
  cases hst with
  | @operation vm c operands hlive =>
    exact Session.live_ofResult (c.respects (Heap.itself_all hlive) vm vm (Vm.Live.related h))
  | alloc ha => exact alloc h ha
  | pushTemp hr => exact Vm.Live.pushTemp h hr
  | popTemp => exact Vm.Live.popTemp h
  | addRoot hr => exact addRoot h hr
  | removeRoot hperm =>
    exact Vm.Live.withRoots h (fun r hr => (Vm.Live.heap h).root_live r (List.mem_of_mem_erase hr)) hperm
  | collect => exact collect h
  | begin entry hrefs => exact begin h entry hrefs
  | step => exact Session.live_ofOutcome (Machine.Live.related h).step_self
  | answer a _ => exact Session.live_ofOutcome ((Machine.Live.related h).resume a)
  | collectWithin hsafe => exact collecting h hsafe

theorem reaches {s t : Session} (h : s.Live) (hst : s.Reaches t) : t.Live := by
  induction hst with
  | refl => exact h
  | tail _ hstep ih => exact ih.step hstep

theorem vm_live {s : Session} (h : s.Live) : s.vm.Live := by
  cases s with
  | idle vm => exact h
  | active m => exact Machine.Live.vm h
  | ended vm stop => exact And.left h

end Session.Live

theorem Session.boot_live (registry : Registry) (config : Config) (heap : Nat) (task : TaskId) :
    (Session.boot registry config heap task).Live := by
  have hconfig : config.Alike config := ⟨rfl, rfl, rfl, rfl⟩
  obtain ⟨ρ, h⟩ := Vm.boot_twins registry hconfig heap heap task
  exact h.live

/-- No reference dangles in a task that was new once: neither one that the task holds, nor a
permanent root, nor the class of an object, nor what an object holds. So nothing ever fails over a
reference that is stale or of another heap. -/
theorem Session.references_live (registry : Registry) (config : Config) (heap : Nat)
    (task : TaskId) {s : Session} (hs : (Session.boot registry config heap task).Reaches s) :
    (∀ r ∈ s.vm.roots, s.vm.heap.contains r = true) ∧
    (∀ r ∈ s.vm.heap.roots, s.vm.heap.contains r = true) ∧
    (∀ cell ∈ s.vm.heap.cells, ∀ o, cell.obj = some o →
      s.vm.heap.contains o.cls = true ∧ ∀ r ∈ o.payload.refs, s.vm.heap.contains r = true) ∧
    ∀ vm f, s = .ended vm (.fatal f) → ¬ f.Dangling := by
  have hlive := (Session.boot_live registry config heap task).reaches hs
  obtain ⟨hsound, hroots⟩ := hlive.vm_live
  refine ⟨hroots, hsound.root_live, ?_, ?_⟩
  · intro cell hcell o ho
    obtain ⟨i, hi, rfl⟩ := Array.mem_iff_getElem.mp hcell
    have hget : s.vm.heap.get ⟨s.vm.heap.id, i, s.vm.heap.cells[i].generation⟩ = .ok o :=
      Heap.get_eq_ok.mpr ⟨rfl, _, Array.getElem?_eq_getElem hi, rfl, ho⟩
    exact hsound.closed _ o hget
  · rintro vm f rfl
    exact hlive.2 f rfl

/-- A new task after a collection. -/
theorem Session.references_live_collected :
    ∃ vm, (Session.boot {} {} 0 ⟨0, 0⟩).Reaches (.idle vm) ∧ vm.heap.collections = 1 ∧
      vm.roots.length = 29 ∧ ∀ r ∈ vm.roots, vm.heap.contains r = true := by
  have hrun : (match Vm.collect (Vm.boot {} {} 0 ⟨0, 0⟩) with
      | .ok _ vm => vm.heap.collections == 1 && vm.roots.length == 29
      | .error _ _ => false) = true := by decide +kernel
  have hstep : Session.Step (Session.boot {} {} 0 ⟨0, 0⟩)
      (.ofResult (Vm.collect (Vm.boot {} {} 0 ⟨0, 0⟩))) := .collect
  cases h : Vm.collect (Vm.boot {} {} 0 ⟨0, 0⟩) with
  | error e vm =>
    rw [h] at hrun
    cases hrun
  | ok n vm =>
    rw [h] at hrun hstep
    obtain ⟨hone, hlength⟩ : vm.heap.collections = 1 ∧ vm.roots.length = 29 := by simpa using hrun
    have hreach : (Session.boot {} {} 0 ⟨0, 0⟩).Reaches (.idle vm) := .single hstep
    exact ⟨vm, hreach, hone, hlength, (Session.references_live {} {} 0 ⟨0, 0⟩ hreach).1⟩

end ObjectMachine
