import ObjectMachine.Proofs.Scopes.Instructions

/-!
# ObjectMachine.Proofs.Scopes.Capture

Closures share the variables of the frames that they are made in.

* `Session.ReachesWhile`, `Session.ReachesSparing` — runs all along which something holds, and runs
  in which a variable is not assigned.
* `Session.body_resolves` — whoever runs the body of a closure finds the captured variables.
* `Session.frame_resolves` — a frame finds its variables as long as it runs.
* `Session.value_kept` — a variable keeps its value until it is assigned.
* `Session.lexical_capture` — the free names of a closure stand for the same variables in every
  activation as in the frame in which it was made, and a store through any of them is what a load
  through any other sees.
-/

namespace ObjectMachine

open ObjectMachine.Action

/-! ## Runs -/

namespace Session

/-- A run all along which something holds. -/
def ReachesWhile (P : Session → Prop) : Session → Session → Prop :=
  Relation.ReflTransGen fun s t => s.Step t ∧ P t

/-- A run in which a variable stays there and is not assigned. -/
def ReachesSparing (v : Ref) : Session → Session → Prop :=
  Relation.ReflTransGen fun s t =>
    s.Step t ∧ ¬ s.Assigns v t ∧ t.vm.heap.contains v = true

/-- The object is there. -/
def Has (r : Ref) (s : Session) : Prop :=
  s.vm.heap.contains r = true

/-- A method with the body is there: a closure, or a copy of it that is bound to a receiver. -/
def Offers (body : Body) (s : Session) : Prop :=
  ∃ r m, s.vm.heap.payload r = .ok (.method m) ∧ m.body = body

/-- A call goes on, and the frame of the object has not returned. -/
def Runs (frame : Ref) (s : Session) : Prop :=
  ∃ m, s = .active m ∧ ∃ g ∈ m.vm.frames, g.frame = frame

end Session

/-- The running frame is an activation of a method with the body. -/
def Machine.Activates (m : Machine) (body : Body) : Prop :=
  ∃ g b, m.vm.frames.back? = some g ∧ m.vm.heap.payload g.method = .ok (.method b) ∧ b.body = body

/-- The running frame is the one of the object. -/
def Machine.InFrame (m : Machine) (frame : Ref) : Prop :=
  ∃ g, m.vm.frames.back? = some g ∧ g.frame = frame

/-- The free names of a closure. -/
def Heap.freeNames (h : Heap) (closure : Ref) : List String :=
  match h.payload closure with
  | .ok (.method m) =>
    match m.body.code?.map h.payload with
    | some (.ok (.code c)) => c.unit.freevars
    | _ => []
  | _ => []

theorem Heap.freeNames_eq {h : Heap} {closure code : Ref} {m : Method} {c : Code}
    (hm : h.payload closure = .ok (.method m)) (hcode : m.body.code? = some code)
    (hc : h.payload code = .ok (.code c)) : h.freeNames closure = c.unit.freevars := by
  simp [freeNames, hm, hcode, hc]

/-! ## Activations of a body -/

/-- What a method holds on to is there: its code, and what it has captured. -/
theorem Heap.Closed.captured_live {h : Heap} (hc : h.Closed) {r code : Ref} {m : Method}
    {module : Option Ref} {bindings : NameMap Ref} (hm : h.payload r = .ok (.method m))
    (hbody : m.body = .closure code module bindings) :
    h.contains code = true ∧ ∀ name v, bindings.find? name = some v → h.contains v = true := by
  have hrefs : ∀ s ∈ code :: (module.toList ++ bindings.values), h.contains s = true := by
    intro s hs
    refine hc.refs_live hm ?_
    simp only [Payload.refs, Payload.markFn?, MarkFn.targets, hbody]
    exact List.mem_append_right _ hs
  refine ⟨hrefs _ List.mem_cons_self, fun name v hv => hrefs _ ?_⟩
  exact List.mem_cons_of_mem _ (List.mem_append_right _ (NameMap.mem_values hv))

namespace Session

variable {s t : Session}

theorem Live.closed (h : s.Live) : s.vm.heap.Closed :=
  h.vm_live.heap.closed

/-- What every step of a run keeps, the whole run keeps. Only the end of the system has no next
step, so that no run goes on from there. -/
theorem Orderly.along {R : Session → Session → Prop} (hstep : ∀ s t, R s t → s.Step t)
    {I : Session → Prop} (hI : ∀ s t, s.Orderly → t.Orderly → t.Open → R s t → I s → I t)
    (hs : s.Orderly) (h : I s) (hrun : Relation.ReflTransGen R s t) (hopen : t.Open) :
    t.Orderly ∧ I t := by
  induction hrun with
  | refl => exact ⟨hs, h⟩
  | tail _ hR ih =>
    obtain ⟨hs', h'⟩ := ih (hstep _ _ hR).open_left
    have ht := hs'.step (hstep _ _ hR)
    exact ⟨ht, hI _ _ hs' ht hopen hR h'⟩

/-- A method keeps its payload as long as it is there. -/
theorem method_kept {r : Ref} {m : Method} (hs : s.Orderly) (hrun : s.ReachesWhile (Has r) t)
    (hopen : t.Open) (hm : s.vm.heap.payload r = .ok (.method m)) :
    t.vm.heap.payload r = .ok (.method m) :=
  (Orderly.along (I := fun s => s.vm.heap.payload r = .ok (.method m)) (fun _ _ h => h.1)
    (fun _ _ hs _ hopen hR hm => (hR.1.keeps hs.live hopen).objects r _ hm hR.2 trivial)
    hs hm hrun hopen).2

/-- As long as a method is there, its body is. -/
theorem offers_while {r : Ref} {m : Method} (hs : s.Orderly) (hrun : s.ReachesWhile (Has r) t)
    (hopen : t.Open) (hm : s.vm.heap.payload r = .ok (.method m)) :
    s.ReachesWhile (Offers m.body) t := by
  induction hrun with
  | refl => exact .refl
  | tail hrun hR ih =>
    refine (ih hR.1.open_left).tail ⟨hR.1, r, m, ?_, rfl⟩
    exact method_kept hs (hrun.tail hR) hopen hm

section Body

variable {code : Ref} {module : Option Ref} {bindings : NameMap Ref} {c : Code}

/-- The code of a body, and what the body has captured, is there as long as a method has it. -/
theorem body_kept (hs : s.Orderly) (hoffers : s.Offers (.closure code module bindings))
    (hrun : s.ReachesWhile (Offers (.closure code module bindings)) t) (hopen : t.Open)
    (hc : s.vm.heap.payload code = .ok (.code c)) :
    t.Orderly ∧ t.vm.heap.payload code = .ok (.code c) ∧
      ∀ name v, bindings.find? name = some v → t.vm.heap.contains v = true := by
  have hlive : ∀ {s : Session}, s.Orderly → s.Offers (.closure code module bindings) →
      s.vm.heap.contains code = true ∧
        ∀ name v, bindings.find? name = some v → s.vm.heap.contains v = true := by
    rintro s hs ⟨r, m, hm, hbody⟩
    exact hs.live.closed.captured_live hm hbody
  have hall := Orderly.along
    (I := fun s => s.vm.heap.payload code = .ok (.code c) ∧
      ∀ name v, bindings.find? name = some v → s.vm.heap.contains v = true)
    (fun _ _ h => h.1) ?_ hs ⟨hc, (hlive hs hoffers).2⟩ hrun hopen
  · exact hall
  · intro s t hs ht hopen hR hI
    obtain ⟨hcode, hvars⟩ := hlive ht hR.2
    exact ⟨(hR.1.keeps hs.live hopen).objects code _ hI.1 hcode trivial, hvars⟩

/-- Whoever runs the body finds the captured variables. -/
theorem body_resolves {k : Machine} (hk : (active k).Orderly)
    (hc : k.vm.heap.payload code = .ok (.code c))
    (hact : k.Activates (.closure code module bindings)) {name : String} {v : Ref}
    (hname : name ∈ c.unit.freevars) (hv : bindings.find? name = some v) :
    Vm.scopedVar? name k.vm = .ok (some v) k.vm := by
  obtain ⟨g, b, hback, hb, hbody⟩ := hact
  obtain ⟨hm, hcode, -, hval, hunit, hfr, -, hvars⟩ :=
    hk.framed trivial g (Array.mem_of_back? hback)
  rename_i m c' fr
  obtain rfl : b = m := by
    have heq := hb.symm.trans hm
    cases heq
    rfl
  have hcode' : code = g.code := by
    rw [hbody] at hcode
    exact Option.some.inj hcode
  obtain rfl : c = c' := by
    have heq := hc.symm.trans (hcode' ▸ hval)
    cases heq
    rfl
  rw [hbody] at hvars
  rw [hunit] at hname
  exact Vm.scopedVar?_eq_some.mpr ⟨⟨g, hback, .frame hfr (hvars name hname v hv)⟩, rfl⟩

end Body

/-! ## The frame itself -/

/-- What stays known of a frame that has not returned. -/
structure Knows (f : ActiveFrame) (name : String) (v : Ref) (s : Session) : Prop where
  active : ∃ m, s = .active m
  method : ∃ m, s.vm.heap.payload f.method = .ok (.method m) ∧ m.body.module? = f.module
  frame : ∃ fr, s.vm.heap.payload f.frame = .ok (.frame fr) ∧ fr.method = f.method
  resolves : s.vm.heap.Resolves f name v

section Built

variable {h : Heap} {f g : ActiveFrame} {fr : Frame} {b : Method}

/-- A frame object belongs to one method. -/
theorem built_method_eq (hg : g.Built h) (hframe : g.frame = f.frame)
    (hfr : h.payload f.frame = .ok (.frame fr)) (hmethod : fr.method = f.method) :
    g.method = f.method := by
  obtain ⟨-, -, -, -, -, hfr', hmethod', -⟩ := hg
  rw [hframe, hfr] at hfr'
  cases hfr'
  exact hmethod'.symm.trans hmethod

theorem built_module_eq (hg : g.Built h) (hmethod : g.method = f.method)
    (hb : h.payload f.method = .ok (.method b)) (hmodule : b.body.module? = f.module) :
    g.module = f.module := by
  obtain ⟨hm, -, hmodule', -, -, -, -, -⟩ := hg
  rw [hmethod, hb] at hm
  cases hm
  exact hmodule'.symm.trans hmodule

end Built

/-- The frame keeps its method alive, and the method its module. -/
theorem Knows.step {f : ActiveFrame} {name : String} {v : Ref} (hs : s.Orderly) (ht : t.Orderly)
    (hst : s.Step t) (hruns : t.Runs f.frame) (h : s.Knows f name v) : t.Knows f name v := by
  obtain ⟨m, rfl⟩ := h.active
  obtain ⟨k, rfl, g, hg, hframe⟩ := hruns
  have hroots := fun r hr => ht.live.vm_live.frame_live hg (r := r) hr
  have hbuilt := ht.framed trivial g hg
  have hd := (hst.active_develops hs.live.vm_live trivial).heap
  obtain ⟨fr, hfr, hmethod⟩ := h.frame
  have hfr' := hd.payload_lasting hfr (hframe ▸ hroots _ (by simp)) trivial
  have heq := built_method_eq hbuilt hframe hfr' hmethod
  obtain ⟨b, hb, hmodule⟩ := h.method
  have hb' := hd.payload_lasting hb (heq ▸ hroots _ (by simp)) trivial
  have hmodule' := built_module_eq hbuilt heq hb' hmodule
  refine ⟨⟨k, rfl⟩, ⟨b, hb', hmodule⟩, ⟨fr, hfr', hmethod⟩, hd.resolves ?_ ?_ h.resolves⟩
  · exact hframe ▸ hroots _ (by simp)
  · intro r hr
    refine hroots r ?_
    rw [hmodule']
    simp [Option.mem_def.mp hr]

/-- A frame finds its variables as long as it has not returned. -/
theorem frame_resolves {m k : Machine} {f : ActiveFrame} {name : String} {v : Ref}
    (hm : (active m).Orderly) (hf : f ∈ m.vm.frames) (hv : m.vm.heap.Resolves f name v)
    (hrun : (active m).ReachesWhile (Runs f.frame) (active k)) :
    k.vm.heap.contains v = true ∧
      (k.InFrame f.frame → Vm.scopedVar? name k.vm = .ok (some v) k.vm) := by
  have hknows : (active m).Knows f name v := by
    obtain ⟨hmethod, -, hmodule, -, -, hframe, heq, -⟩ := hm.framed trivial f hf
    exact ⟨⟨m, rfl⟩, ⟨_, hmethod, hmodule⟩, ⟨_, hframe, heq⟩, hv⟩
  obtain ⟨hk, hknows'⟩ := Orderly.along (fun _ _ h => h.1)
    (fun _ _ hs ht _ hR h => h.step hs ht hR.1 hR.2) hm hknows hrun trivial
  refine ⟨hk.live.closed.resolves_live hknows'.resolves, ?_⟩
  rintro ⟨g, hback, hframe⟩
  have hbuilt := hk.framed trivial g (Array.mem_of_back? hback)
  obtain ⟨fr, hfr, heq⟩ := hknows'.frame
  obtain ⟨b, hb, hmodule⟩ := hknows'.method
  have hmodule' := built_module_eq hbuilt (built_method_eq hbuilt hframe hfr heq) hb hmodule
  exact Vm.scopedVar?_eq_some.mpr ⟨⟨g, hback, hknows'.resolves.of_eq hframe hmodule'⟩, rfl⟩

/-! ## Values -/

/-- A variable keeps its value until it is assigned. -/
theorem value_kept {v : Ref} {value : Option Ref} (hs : s.Orderly)
    (hrun : s.ReachesSparing v t) (hopen : t.Open)
    (hv : s.vm.heap.payload v = .ok (.var value)) :
    t.Orderly ∧ t.vm.heap.payload v = .ok (.var value) :=
  Orderly.along (I := fun s => s.vm.heap.payload v = .ok (.var value)) (fun _ _ h => h.1)
    (fun _ _ hs _ hopen hR hv => (hR.1.keeps hs.live hopen).objects v _ hv hR.2.2 hR.2.1)
    hs hv hrun hopen

/-- What is stored to a variable is what the next load of it answers. -/
theorem stored_loaded {n n' k : Machine} {v value : Ref} {stored loaded : String}
    (hn : (active n).Orderly) (hstores : n.Stores n' stored value)
    (hstored : Vm.scopedVar? stored n.vm = .ok (some v) n.vm)
    (hrun : (active n').ReachesSparing v (.active k)) (hloads : k.Loads loaded)
    (hloaded : Vm.scopedVar? loaded k.vm = .ok (some v) k.vm) :
    ∃ k', k.step = .next k' ∧ k'.mode = .running ∧ k'.vm.stack.back? = some value := by
  have hwritten := hstores.payload hn.live.vm_live hstored
  obtain ⟨hk, hvalue⟩ := value_kept (hn.step (.of_next hstores.step)) hrun trivial hwritten
  exact hloads.next hk.live.vm_live hloaded hvalue

/-! ## Capture -/

/-- Lexical capture. In every run, whatever the programs are, wherever the collector runs and
whatever the embedding program does: let a closure be made in a frame. As long as it is there, it
keeps its body, and so its body stays on offer. Each free name of its unit stands for some variable
in the frame at that moment, and

* for the same variable in every activation of the body, through the closure or through copies of
  it that are bound to a receiver, however often and however late that is, be the frame gone or not;
* for the same variable in the frame itself, as long as that has not returned;
* a value that is stored to the variable, under whatever name and through whatever frame, is what
  the next load of it answers, under whatever name and through whatever frame: a load after any run
  in which the variable is not assigned again. -/
theorem lexical_capture (registry : Registry) (config : Config) (heap : Nat) (task : TaskId)
    {m m' : Machine} {f : ActiveFrame} {closure : Ref}
    (hreach : (boot registry config heap task).Reaches (.active m))
    (hmade : m.MakesClosure m' f closure) :
    ∃ code c bindings,
      m'.vm.heap.payload code = .ok (.code c) ∧
      (∀ t, (active m').ReachesWhile (Has closure) t → t.Open →
        t.vm.heap.payload closure =
          .ok (.method ⟨c.unit.name, .closure code f.module bindings, none⟩) ∧
        (active m').ReachesWhile (Offers (.closure code f.module bindings)) t) ∧
      ∀ name ∈ c.unit.freevars, ∃ v, Vm.scopedVar? name m.vm = .ok (some v) m.vm ∧
        (∀ k, (active m').ReachesWhile (Offers (.closure code f.module bindings)) (.active k) →
          k.vm.heap.contains v = true ∧
          (k.Activates (.closure code f.module bindings) →
            Vm.scopedVar? name k.vm = .ok (some v) k.vm)) ∧
        (∀ k, (active m').ReachesWhile (Runs f.frame) (.active k) →
          k.vm.heap.contains v = true ∧
          (k.InFrame f.frame → Vm.scopedVar? name k.vm = .ok (some v) k.vm)) ∧
        ∀ n n' k stored loaded value,
          (boot registry config heap task).Reaches (.active n) → n.Stores n' stored value →
          Vm.scopedVar? stored n.vm = .ok (some v) n.vm →
          (active n').ReachesSparing v (.active k) → k.Loads loaded →
          Vm.scopedVar? loaded k.vm = .ok (some v) k.vm →
          ∃ k', k.step = .next k' ∧ k'.mode = .running ∧ k'.vm.stack.back? = some value := by
  have hm := orderly registry config heap task hreach
  obtain ⟨code, c, bindings, hc, hclosure, hcaptured, hback⟩ :=
    hmade.captures (Machine.Live.vm hm.live)
  have hst := Step.of_next hmade.step
  have hm' := hm.step hst
  have hmem := Array.mem_of_back? hback
  obtain ⟨i, hstands⟩ := hmade.stands
  have hoffers : (active m').Offers (.closure code f.module bindings) := ⟨closure, _, hclosure, rfl⟩
  refine ⟨code, c, bindings, hc, fun t hrun hopen =>
    ⟨method_kept hm' hrun hopen hclosure, offers_while hm' hrun hopen hclosure⟩, ?_⟩
  intro name hname
  obtain ⟨v, hv, hres⟩ := hcaptured name hname
  refine ⟨v, Vm.scopedVar?_eq_some.mpr ⟨⟨f, hstands.frame, hres⟩, rfl⟩, ?_, ?_, ?_⟩
  · intro k hrun
    obtain ⟨hk, hck, hvars⟩ := body_kept hm' hoffers hrun trivial hc
    exact ⟨hvars name v hv, fun hact => body_resolves hk hck hact hname hv⟩
  · intro k hrun
    have hroots := fun r hr => hm'.live.vm_live.frame_live hmem (r := r) hr
    have hd := (hst.active_develops hm.live.vm_live trivial).heap
    have hres' := hd.resolves (hroots f.frame (by simp))
      (fun r hr => hroots r (by simp [Option.mem_def.mp hr])) hres
    exact frame_resolves (f := { f with ip := f.ip + 1 }) hm' hmem (hres'.of_eq rfl rfl) hrun
  · intro n n' k stored loaded value hn hstores hstored hrun hloads hloaded
    have hn := orderly registry config heap task hn
    exact stored_loaded hn hstores hstored hrun hloads hloaded

/-- A unit that makes a closure over its local variable, and calls it. -/
def sharing : CodeUnit where
  code := #[.args .makeClosure 0 0 0, .args .call 0 0 0, .simple .ret]
  locals := ["n"]
  consts := [.code {
    code := #[.args .pushName 0 0 0, .simple .ret]
    names := ["n"]
    freevars := ["n"] }]

/-- A call of a method over the unit in a new task: the machine at the beginning, and after each of
its first two steps. -/
def opening? (unit : CodeUnit) : Option (Machine × Machine × Machine) :=
  match (Operation.method unit).run [] (Vm.boot {} {} 0 ⟨0, 0⟩) with
  | .ok [r] vm =>
    if vm.heap.contains r then
      match Entry.begin vm (.bytecode r []) with
      | .next m =>
        match m.step with
        | .next m' =>
          match m'.step with
          | .next k => some (m, m', k)
          | _ => none
        | _ => none
      | _ => none
    else none
  | _ => none

theorem opening?_eq_some {unit : CodeUnit} {m m' k : Machine}
    (h : opening? unit = some (m, m', k)) :
    (boot {} {} 0 ⟨0, 0⟩).Reaches (.active m) ∧ m.step = .next m' ∧ m'.step = .next k := by
  unfold opening? at h
  split at h
  case h_2 => cases h
  rename_i r vm hmethod
  have hnone : ∀ r ∈ ([] : List Ref), (Vm.boot {} {} 0 ⟨0, 0⟩).heap.contains r = true := by simp
  have hmake : Step (boot {} {} 0 ⟨0, 0⟩) (.ofResult _) := .operation (.method unit) hnone
  rw [hmethod] at hmake
  split at h
  case isFalse => cases h
  rename_i hlive
  split at h
  case h_2 => cases h
  rename_i m₁ hbegin
  have hcall : Step (.idle vm) (.ofOutcome _) :=
    .begin (.bytecode r []) (by simpa [Entry.refs] using hlive)
  rw [hbegin] at hcall
  split at h
  case h_2 => cases h
  rename_i hfirst
  split at h
  case h_2 => cases h
  rename_i hsecond
  cases h
  exact ⟨.head hmake (.single hcall), hfirst, hsecond⟩

/-- The closure is called while its frame runs. Both find the same variable. -/
theorem lexical_capture_called : ∃ m m' k f closure v,
    (boot {} {} 0 ⟨0, 0⟩).Reaches (.active m) ∧ m.MakesClosure m' f closure ∧
      m'.step = .next k ∧ (∃ g, k.vm.frames.back? = some g ∧ g.method = closure) ∧
      Vm.scopedVar? "n" m.vm = .ok (some v) m.vm ∧
      Vm.scopedVar? "n" k.vm = .ok (some v) k.vm := by
  have hrun : (opening? sharing).any (fun (m, m', k) =>
      m.standsAt .makeClosure && m'.standsAt .call &&
        m'.vm.stack.back?.any fun closure => m'.vm.heap.freeNames closure == ["n"] &&
          k.vm.heap.contains closure && k.vm.frames.back?.any (·.method == closure)) = true := by
    decide +kernel
  obtain ⟨⟨m, m', k⟩, hopening, hrun⟩ := (Option.any_eq_true _ _).mp hrun
  obtain ⟨hreach, hfirst, hsecond⟩ := opening?_eq_some hopening
  simp only [Bool.and_eq_true, Option.any_eq_true, beq_iff_eq] at hrun
  obtain ⟨⟨hmakes, hcalls⟩, closure, htop, ⟨hnames, hlive⟩, g, hback, hg⟩ := hrun
  obtain ⟨f, hstands⟩ := Machine.standsAt_iff.mp hmakes
  obtain ⟨_, _, hcalls⟩ := Machine.standsAt_iff.mp hcalls
  have hmade : m.MakesClosure m' f closure := ⟨hstands, hfirst, hcalls.mode, htop⟩
  obtain ⟨code, c, bindings, hc, hkeeps, hshares⟩ := lexical_capture {} {} 0 ⟨0, 0⟩ hreach hmade
  have hname : "n" ∈ c.unit.freevars := by
    have hfree : m'.vm.heap.freeNames closure = c.unit.freevars :=
      Heap.freeNames_eq (hkeeps _ .refl trivial).1 rfl hc
    rw [← hfree, hnames]
    exact List.mem_cons_self
  obtain ⟨v, hv, hactivations, -⟩ := hshares "n" hname
  obtain ⟨hclosure, hoffers⟩ :=
    hkeeps (.active k) (.single ⟨Step.of_next hsecond, hlive⟩) trivial
  refine ⟨m, m', k, f, closure, v, hreach, hmade, hsecond, ⟨g, hback, hg⟩, hv, ?_⟩
  exact (hactivations k hoffers).2 ⟨g, _, hback, hg ▸ hclosure, rfl⟩

end Session

end ObjectMachine
