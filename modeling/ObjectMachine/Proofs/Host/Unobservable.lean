import ObjectMachine.Proofs.Host.Operations
import ObjectMachine.Proofs.Renaming.Boot

/-!
# ObjectMachine.Proofs.Host.Unobservable

A program cannot tell when the collector runs.

Two new tasks whose settings differ in what the collector goes by are given the same program. As
long as it does not ask for a collection itself, they go through the same steps, and each ends as
the other does.

* `Heap.SameGraph` — two values that look the same from inside.
* `Program` — a callee and arguments that an embedding program makes.
* `Outcome.Alike` — the ends that cannot be told apart.
* `Guarded` — the failure of such a call is a raised value.
* `Program.collections_unobservable` — the main result.
-/

namespace ObjectMachine

variable {ρ : Renaming}

/-! ## Values -/

/-- What `r` and `s` lead to is the same up to the names of objects: the renaming gives each object
on one side one object on the other, with the same contents. -/
def Heap.SameGraph (h : Heap) (r : Ref) (h' : Heap) (s : Ref) : Prop :=
  ∃ ρ, h.Paired ρ h' ∧ ρ r s ∧
    (∀ a, h.Reachable [r] a → ∃ b, h'.Reachable [s] b ∧ ρ a b) ∧
    ∀ b, h'.Reachable [s] b → ∃ a, h.Reachable [r] a ∧ ρ a b

namespace Heap.Related

variable {h h' : Heap} {r s a b : Ref}

theorem edge_left (hr : h.Related ρ h') (hrs : ρ r s) (he : h.Edge r a) :
    ∃ b, h'.Edge s b ∧ ρ a b := by
  obtain ⟨o, p, ho, hp, hop⟩ := hr.get hrs
  cases he with
  | cls hc =>
    rw [ho] at hc
    cases hc
    exact ⟨p.cls, .cls hp, hop.cls⟩
  | traced hc _ _ _ hmem =>
    rw [ho] at hc
    cases hc
    obtain ⟨b, hb, hab⟩ := forall₂_mem_left hop.payload.refs (MarkFn.targets_subset _ _ hmem)
    exact ⟨b, hr.right.edge hp hb, hab⟩

theorem edge_right (hr : h.Related ρ h') (hrs : ρ r s) (he : h'.Edge s b) :
    ∃ a, h.Edge r a ∧ ρ a b := by
  obtain ⟨o, p, ho, hp, hop⟩ := hr.get hrs
  cases he with
  | cls hc =>
    rw [hp] at hc
    cases hc
    exact ⟨o.cls, .cls ho, hop.cls⟩
  | traced hc _ _ _ hmem =>
    rw [hp] at hc
    cases hc
    obtain ⟨a, ha, hab⟩ := forall₂_mem_right hop.payload.refs (MarkFn.targets_subset _ _ hmem)
    exact ⟨a, hr.left.edge ho ha, hab⟩

theorem sameGraph (hr : h.Related ρ h') (hrs : ρ r s) : h.SameGraph r h' s := by
  refine ⟨ρ, hr.toPaired, hrs, fun a ha => ?_, fun b hb => ?_⟩
  · induction ha with
    | root hmem =>
      obtain rfl := List.mem_singleton.mp hmem
      exact ⟨s, .root List.mem_cons_self, hrs⟩
    | edge _ he ih =>
      obtain ⟨b, hb, hab⟩ := ih
      obtain ⟨b', hb', hab'⟩ := hr.edge_left hab he
      exact ⟨b', .edge hb hb', hab'⟩
  · induction hb with
    | root hmem =>
      obtain rfl := List.mem_singleton.mp hmem
      exact ⟨r, .root List.mem_cons_self, hrs⟩
    | edge _ he ih =>
      obtain ⟨a, ha, hab⟩ := ih
      obtain ⟨a', ha', hab'⟩ := hr.edge_right hab he
      exact ⟨a', .edge ha ha', hab'⟩

end Heap.Related

/-! ## Programs -/

/-- Operations of an embedding program. Each is given numbers of references that were answered
before. -/
abbrev Script := List (Operation × List Nat)

/-- The reference with a number; `nothing` for a number that stands for none. -/
def chosen (known : List Ref) (nothing : Ref) (i : Nat) : Ref :=
  known[i]?.getD nothing

/-- All references that the operations answer, after those that are known before. -/
def Script.run : Script → List Ref → Action (List Ref)
  | [], known => return known
  | (c, numbers) :: rest, known => do
    let nothing ← Vm.nil
    let answers ← c.run (numbers.map (chosen known nothing))
    run rest (known ++ answers)

/-- A call of something that was made, with arguments that were made. -/
structure Program where
  script : Script
  callee : Nat
  args : List Nat

namespace Program

def prepare (p : Program) : Action (Ref × List Ref) := do
  let known ← Script.run p.script []
  let nothing ← Vm.nil
  return (chosen known nothing p.callee, p.args.map (chosen known nothing))

/-- The beginning of the call. Any failure of it is told as a raised value. -/
def begin (p : Program) (vm : Vm) : Outcome :=
  Machine.continueWith p.prepare vm [.guard] fun (callee, args) vm =>
    ⟨vm, [.guard], .calling callee args⟩

def run (p : Program) (fuel : Nat) (vm : Vm) : Outcome :=
  match p.begin vm with
  | .next m => m.run fuel
  | o => o

/-- The program never asks for a collection. -/
def NeverCollects (p : Program) (vm : Vm) : Prop :=
  ∀ fuel m, p.run fuel vm = .next m → ¬ m.Collects

end Program

/-! ## The same program in two tasks -/

theorem chosen_related {known known' : List Ref} {x y : Ref} (h : List.Forall₂ ρ known known')
    (hxy : ρ x y) (i : Nat) : ρ (chosen known x i) (chosen known' y i) := by
  have hi := forall₂_getElem? h i
  unfold chosen
  generalize known[i]? = a, known'[i]? = b at hi ⊢
  cases hi with
  | some hab => exact hab
  | none => exact hxy

theorem chosen_all {known known' : List Ref} {x y : Ref} (h : List.Forall₂ ρ known known')
    (hxy : ρ x y) (numbers : List Nat) :
    List.Forall₂ ρ (numbers.map (chosen known x)) (numbers.map (chosen known' y)) := by
  refine List.rel_map (fun i j hij => ?_) (List.forall₂_same.mpr fun i _ => rfl)
  obtain rfl : i = j := hij
  exact chosen_related h hxy i

theorem Script.respects (script : Script) {known known' : List Ref}
    (h : List.Forall₂ ρ known known') :
    Respects ρ (script.run known) (script.run known') Operands.Answers := by
  induction script generalizing ρ known known' with
  | nil => exact Respects.return_ h
  | cons e rest ih =>
    obtain ⟨c, numbers⟩ := e
    refine Observes.nil.andThen fun x y hxy => ?_
    refine (c.respects (chosen_all h hxy numbers)).bind fun σ hσ as bs hab => ?_
    exact ih (List.rel_append (List.Forall₂.imp hσ h) hab)

namespace Program

theorem prepare_respects (p : Program) :
    Respects ρ p.prepare p.prepare fun σ x y => σ x.1 y.1 ∧ List.Forall₂ σ x.2 y.2 := by
  refine (Script.respects p.script .nil).bind fun σ _ known known' h => ?_
  refine Observes.nil.andThen fun x y hxy => ?_
  exact Respects.return_ ⟨chosen_related h hxy p.callee, chosen_all h hxy p.args⟩

theorem begin_related (p : Program) {v w : Vm} (hvw : v.Related ρ w) :
    Outcome.Related (p.begin v) (p.begin w) := by
  have hrest : Resting ρ v [.guard] w [.guard] := ⟨hvw, .cons .guard .nil, trivial⟩
  refine hrest.continueWith (p.prepare_respects v w hvw) ?_
  rintro σ - ⟨callee, args⟩ ⟨callee', args'⟩ v' w' h ⟨hcallee, hargs⟩
  exact ⟨h, .calling hcallee hargs⟩

theorem run_related (p : Program) {v w : Vm} (hvw : v.Related ρ w) (hgc : p.NeverCollects v)
    (fuel : Nat) : Outcome.Related (p.run fuel v) (p.run fuel w) := by
  have hbegin := p.begin_related hvw
  unfold NeverCollects run at hgc
  unfold run
  generalize p.begin v = x, p.begin w = y at hbegin hgc ⊢
  cases hbegin with
  | next h => exact h.run fuel hgc
  | value h hrs => exact .value h hrs
  | error h he => exact .error h he
  | blocked request h => exact .blocked request h
  | fatal h hf => exact .fatal h hf
  | crashed h => exact .crashed h

end Program
/-! ## Failures of guarded calls -/

/-- What waits is inside of a guard. When the guard is gone, there is a value or a raised value. -/
inductive Guarded : List Kont → Mode → Prop where
  | inside (konts : List Kont) (mode : Mode) : Guarded (konts ++ [.guard]) mode
  | value (v : Ref) : Guarded [] (.returning v)
  | panic (v : Ref) : Guarded [] (.raising (.panic v))

/-- The call goes on inside of its guard, or its failure is a raised value. -/
def Outcome.Guards : Outcome → Prop
  | .next m => Guarded m.konts m.mode
  | .done _ (.error e) => ∃ v, e = .panic v
  | _ => True

theorem Guarded.cons {konts : List Kont} (k : Kont) (mode : Mode) :
    Guarded (k :: (konts ++ [.guard])) mode :=
  .inside (k :: konts) mode

theorem Guarded.continueWith {α : Type} (a : Action α) (vm : Vm) (konts : List Kont)
    {f : α → Vm → Machine} (hf : ∀ x vm, Guarded (f x vm).konts (f x vm).mode) :
    (Machine.continueWith a vm (konts ++ [.guard]) f).Guards := by
  unfold Machine.continueWith
  cases a vm with
  | ok x vm => exact hf x vm
  | error e vm =>
    cases e with
    | raised e => exact .inside konts _
    | fatal f => trivial
    | crashed => trivial

theorem Guarded.ofReply (konts : List Kont) (reply : Reply) (vm : Vm) :
    Guarded (Machine.ofReply (konts ++ [.guard]) reply vm).konts
      (Machine.ofReply (konts ++ [.guard]) reply vm).mode := by
  cases reply with
  | value r => exact .inside konts _
  | call callee args => exact .inside konts _
  | attempt callee args => exact .cons _ _
  | construct cls args => exact .inside konts _
  | fill obj init args => exact .cons _ _
  | entered floor base => exact .cons _ _
  | wait request => exact .inside konts _

theorem Guarded.stepRunning (vm : Vm) (konts : List Kont) :
    (Machine.stepRunning vm (konts ++ [.guard])).Guards := by
  cases konts with
  | nil => trivial
  | cons k outer =>
    cases k with
    | loop floor base =>
      refine continueWith (Vm.stepLoop floor) vm (.loop floor base :: outer) fun flow vm => ?_
      cases flow with
      | next => exact .cons _ _
      | leave v => exact .inside outer _
      | call callee args n => exact .inside (.operands n :: .loop floor base :: outer) _
      | wait request n => exact .inside (.operands n :: .loop floor base :: outer) _
    | _ => trivial

theorem Guarded.stepReturning (v : Ref) (vm : Vm) (konts : List Kont) :
    (Machine.stepReturning v vm (konts ++ [.guard])).Guards := by
  cases konts with
  | nil => exact .value v
  | cons k konts =>
    cases k with
    | loop floor base => trivial
    | operands n => exact continueWith _ vm konts fun _ _ => .inside konts _
    | fill obj => exact Guarded.inside konts _
    | attempt => exact continueWith _ vm konts fun _ _ => .inside konts _
    | guard => exact Guarded.inside konts _

/-- The value that a failure raises is not looked for in vain. -/
theorem Vm.raisedValue_not_raised (e : Error) (vm : Vm) {e' : Error} {vm' : Vm} :
    Vm.raisedValue e vm ≠ .error (.raised e') vm' := by
  intro h
  unfold Vm.raisedValue at h
  split at h
  · cases h
  · unfold Vm.newError Vm.allocError Vm.new Vm.alloc at h
    split at h
    · cases h
    · cases h

theorem Guarded.stepRaising (e : Error) (vm : Vm) (konts : List Kont) :
    (Machine.stepRaising e vm (konts ++ [.guard])).Guards := by
  cases konts with
  | nil =>
    show (Machine.continueWith (Vm.raisedValue e) vm [] fun v vm =>
      ⟨vm, [], .raising (.panic v)⟩).Guards
    unfold Machine.continueWith
    cases h : Vm.raisedValue e vm with
    | ok v vm => exact Guarded.panic v
    | error stop vm =>
      cases stop with
      | raised e => exact absurd h (Vm.raisedValue_not_raised _ _)
      | fatal f => trivial
      | crashed => trivial
  | cons k konts =>
    cases k with
    | loop floor base => exact continueWith _ vm konts fun _ _ => .inside konts _
    | operands n => exact Guarded.inside konts _
    | fill obj => exact Guarded.inside konts _
    | attempt => exact continueWith _ vm konts fun _ _ => .inside konts _
    | guard => exact continueWith _ vm konts fun _ _ => .inside konts _

theorem Guarded.step {m : Machine} (h : Guarded m.konts m.mode) : m.step.Guards := by
  obtain ⟨vm, konts, mode⟩ := m
  cases h with
  | value v => trivial
  | panic v => exact ⟨v, rfl⟩
  | inside konts mode =>
    cases mode with
    | running => exact stepRunning vm konts
    | calling callee args => exact continueWith _ vm konts (ofReply konts)
    | constructing cls args => exact continueWith _ vm konts (ofReply konts)
    | returning v => exact stepReturning v vm konts
    | raising e => exact stepRaising e vm konts
    | waiting request => trivial

theorem Guarded.run {m : Machine} (h : Guarded m.konts m.mode) (fuel : Nat) :
    (m.run fuel).Guards := by
  induction fuel generalizing m with
  | zero => exact h
  | succ fuel ih =>
    have hstep := h.step
    unfold Machine.run
    cases hm : m.step with
    | next m' =>
      rw [hm] at hstep
      exact ih hstep
    | _ =>
      rw [hm] at hstep
      exact hstep

theorem Program.run_guards (p : Program) (fuel : Nat) (vm : Vm) : (p.run fuel vm).Guards := by
  have hbegin : (p.begin vm).Guards :=
    Guarded.continueWith p.prepare vm [] fun _ _ => .inside [] _
  unfold Program.run
  cases h : p.begin vm with
  | next m =>
    rw [h] at hbegin
    exact Guarded.run hbegin fuel
  | _ =>
    rw [h] at hbegin
    exact hbegin

/-! ## Programs that do not ask for a collection -/

def Machine.collects (m : Machine) : Bool :=
  match m.mode with
  | .calling callee _ =>
    match m.vm.heap.get callee with
    | .ok ⟨_, .method ⟨_, .native .collect, _⟩⟩ => true
    | _ => false
  | _ => false

theorem Machine.Collects.collects {m : Machine} (h : m.Collects) : m.collects = true := by
  obtain ⟨callee, args, hmode, k, ⟨name, body, receiver⟩, hget, rfl⟩ := h
  unfold Machine.collects
  rw [hmode]
  dsimp only
  rw [hget]

/-- The call is over in a number of steps, none of which asks for a collection. -/
def Machine.endsQuietly : Nat → Machine → Bool
  | 0, _ => false
  | fuel + 1, m =>
    !m.collects &&
      match m.step with
      | .next m => endsQuietly fuel m
      | _ => true

theorem Machine.not_collects_of_endsQuietly {steps : Nat} {m : Machine}
    (h : m.endsQuietly steps = true) {fuel : Nat} {m' : Machine} (hr : m.run fuel = .next m') :
    ¬ m'.Collects := by
  induction steps generalizing m fuel with
  | zero => cases h
  | succ steps ih =>
    simp only [endsQuietly, Bool.and_eq_true, Bool.not_eq_true'] at h
    cases fuel with
    | zero =>
      obtain rfl : m = m' := Outcome.next.inj hr
      intro hc
      rw [hc.collects] at h
      cases h.1
    | succ fuel =>
      unfold Machine.run at hr
      cases hm : m.step with
      | next m₁ =>
        rw [hm] at hr h
        exact ih h.2 hr
      | _ =>
        rw [hm] at hr
        cases hr

namespace Program

def endsQuietly (p : Program) (steps : Nat) (vm : Vm) : Bool :=
  match p.begin vm with
  | .next m => m.endsQuietly steps
  | _ => true

theorem neverCollects_of_endsQuietly {p : Program} {steps : Nat} {vm : Vm}
    (h : p.endsQuietly steps vm = true) : p.NeverCollects vm := by
  intro fuel m hr
  unfold endsQuietly at h
  unfold run at hr
  cases hb : p.begin vm with
  | next m₀ =>
    rw [hb] at h hr
    exact Machine.not_collects_of_endsQuietly h hr
  | _ =>
    rw [hb] at hr
    cases hr

end Program

/-! ## The main result -/

/-- Ends of a call that cannot be told apart. Whatever they are, the same was printed. -/
inductive Outcome.Alike : Outcome → Outcome → Prop where
  /-- Neither call is over yet. -/
  | unfinished {m n : Machine} : m.vm.output = n.vm.output → Alike (.next m) (.next n)
  | value {v w : Vm} {r s : Ref} : v.output = w.output → v.heap.SameGraph r w.heap s →
      Alike (.done v (.ok r)) (.done w (.ok s))
  | panic {v w : Vm} {r s : Ref} : v.output = w.output → v.heap.SameGraph r w.heap s →
      Alike (.done v (.error (.panic r))) (.done w (.error (.panic s)))
  /-- Both calls wait for the same. -/
  | waiting {m n : Machine} (request : Request) : m.vm.output = n.vm.output →
      Alike (.blocked m request) (.blocked n request)
  /-- The same fatal failure, up to the name of the object it is about. -/
  | fatal {v w : Vm} {ρ : Renaming} {f g : Fatal} : v.output = w.output →
      v.heap.Paired ρ w.heap → f.Related ρ g → Alike (.fatal v f) (.fatal w g)
  | crashed {v w : Vm} : v.output = w.output → Alike (.crashed v) (.crashed w)

theorem Outcome.Related.alike {o p : Outcome} (h : o.Related p) (hg : o.Guards) : o.Alike p := by
  cases h with
  | next h => exact .unfinished h.resting.vm.output
  | value h hrs => exact .value h.output (h.heap.sameGraph hrs)
  | error h he =>
    obtain ⟨v, rfl⟩ := hg
    cases he with
    | panic hrs => exact .panic h.output (h.heap.sameGraph hrs)
    | same hne => exact absurd rfl (hne v)
  | blocked request h => exact .waiting request h.resting.vm.output
  | fatal h hf => exact .fatal h.output h.heap.toPaired hf
  | crashed h => exact .crashed h.output

/-- The collector is not observable. A program that does not ask for a collection does the same in
new tasks whose settings differ in what the collector goes by: after any number of steps either
both calls go on or both are over, with results that look the same from inside, and they have
printed the same. -/
theorem Program.collections_unobservable (registry : Registry) {config config' : Config}
    (hconfig : config.Alike config') (heap heap' : Nat) (task : TaskId) (p : Program)
    (hgc : p.NeverCollects (Vm.boot registry config heap task)) (fuel : Nat) :
    (p.run fuel (Vm.boot registry config heap task)).Alike
      (p.run fuel (Vm.boot registry config' heap' task)) := by
  obtain ⟨ρ, hvw⟩ := Vm.boot_twins registry hconfig heap heap' task
  exact (p.run_related hvw hgc fuel).alike (p.run_guards fuel _)

/-- A call of a method that makes an array, drops it, and returns another one. -/
def Program.twoArrays : Program where
  script := [(.method { code := #[.simple .makeArray, .simple .pop, .simple .pushNil,
    .args .makeArray 1 0 0, .simple .ret] }, [])]
  callee := 0
  args := []

/-- It does the same with a collection before each instruction. -/
theorem Program.twoArrays_unobservable :
    twoArrays.NeverCollects (Vm.boot {} {} 0 ⟨0, 0⟩) ∧ ∀ fuel,
      (twoArrays.run fuel (Vm.boot {} {} 0 ⟨0, 0⟩)).Alike
        (twoArrays.run fuel (Vm.boot {} { gcThreshold := 1, gcCheckInterval := 1 } 0 ⟨0, 0⟩)) := by
  have hends : twoArrays.endsQuietly 12 (Vm.boot {} {} 0 ⟨0, 0⟩) = true := by decide +kernel
  have hgc := neverCollects_of_endsQuietly hends
  have hconfig : Config.Alike {} { gcThreshold := 1, gcCheckInterval := 1 } := ⟨rfl, rfl, rfl, rfl⟩
  refine ⟨hgc, fun fuel => ?_⟩
  exact collections_unobservable {} hconfig 0 0 ⟨0, 0⟩ twoArrays hgc fuel

end ObjectMachine
