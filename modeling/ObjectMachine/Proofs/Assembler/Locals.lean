import ObjectMachine.Proofs.Assembler.Labels
import ObjectMachine.Proofs.Scopes.Parameters

/-!
# ObjectMachine.Proofs.Assembler.Locals

The locals of an assembled unit, and the variables that its frames have.

A local that is declared already is not declared again, but a parameter is declared each time. The
variables of a frame go by name, so parameters of one name share a variable.

* `Assembler.Declared` — what the declarations so far have led to.
* `Assembler.assemble_declared` — so it is with every finished unit.
* `Vm.buildFrame_run` — a frame of its own for a method.
* `Vm.assembled_frame` — one variable for each different name, and which argument it holds.
-/

namespace ObjectMachine

open ObjectMachine.Action

/-- The parameter that a command declares. -/
def Command.parameter? : Command → Option String
  | .parameter n => some n
  | _ => none

/-- The local that a command declares, which may be a parameter. -/
def Command.local? : Command → Option String
  | .parameter n => some n
  | .declare n => some n
  | _ => none

namespace Assembler

variable {a a' b : Assembler} {c : Command} {cs : List Command} {op : Op} {n l : Nat}
  {checks : Bool}

/-! ## Commands that declare no local -/

/-- The locals are the same, and so is the number of parameters. -/
structure SameLocals (a a' : Assembler) : Prop where
  locals : a'.unit.locals = a.unit.locals
  arity : a'.unit.arity = a.unit.arity

namespace SameLocals

theorem trans (h : a.SameLocals a') (h' : a'.SameLocals b) : a.SameLocals b :=
  ⟨h'.locals.trans h.locals, h'.arity.trans h.arity⟩

theorem of_recodes (h : a.Recodes a') : a.SameLocals a' := by
  unfold Recodes at h
  exact ⟨by rw [h], by rw [h]⟩

theorem constant {k : Constant} (h : a.constant k = .ok (n, a')) : a.SameLocals a' := by
  simp only [Assembler.constant] at h
  split at h
  · cases h
    exact ⟨rfl, rfl⟩
  · cases h

theorem name {s : String} (h : a.name s = .ok (n, a')) : a.SameLocals a' := by
  simp only [Assembler.name] at h
  split at h
  · cases h
    exact ⟨rfl, rfl⟩
  · split at h
    · cases h
      exact ⟨rfl, rfl⟩
    · cases h

theorem emitConst {k : Constant} (h : a.emitConst op k checks = .ok (n, a')) : a.SameLocals a' := by
  unfold Assembler.emitConst at h
  split at h
  · next index b hk => exact (constant hk).trans (of_recodes (.emitArg h))
  · cases h

theorem emitName {s : String} (h : a.emitName op s checks = .ok (n, a')) : a.SameLocals a' := by
  unfold Assembler.emitName at h
  split at h
  · next index b hk => exact (name hk).trans (of_recodes (.emitArg h))
  · cases h

/-- A command that declares no local leaves the locals as they are. -/
theorem apply (hc : c.local? = none) (h : a.apply c checks = .ok (n, a')) : a.SameLocals a' := by
  cases c with
  | parameter n => cases hc
  | declare n => cases hc
  | capture s =>
    cases h
    exact ⟨rfl, rfl⟩
  | constant k => exact constant h
  | name s => exact name h
  | emit op => exact of_recodes (.emit h)
  | emitArg op arg => exact of_recodes (.emitArg h)
  | pushConst k => exact emitConst h
  | pushName s => exact emitName h
  | storeName s => exact emitName h
  | getAttr s => exact emitName h
  | call argc => exact of_recodes (.emitArg h)
  | makeClosure u => exact emitConst h
  | label =>
    cases h
    exact ⟨rfl, rfl⟩
  | jump op l => exact of_recodes (.jump h)
  | resolve l => exact of_recodes (.resolve h)

end SameLocals

/-! ## Declarations -/

/-- What the commands `cs` have declared. The parameters come first, each as often as it was
declared; the other locals come once. -/
structure Declared (cs : List Command) (a : Assembler) : Prop where
  params : a.unit.params = cs.filterMap Command.parameter?
  arity : a.unit.params.length = a.unit.arity.toNat
  others : (a.unit.locals.drop a.unit.arity.toNat).Nodup
  apart : ∀ s ∈ a.unit.locals.drop a.unit.arity.toNat, s ∉ a.unit.params
  names : ∀ s, s ∈ a.unit.locals ↔ s ∈ cs.filterMap Command.local?

theorem declared_start (name : String) : Declared [] (start name) where
  params := rfl
  arity := rfl
  others := .nil
  apart _ h := nomatch h
  names _ := .rfl

namespace Declared

theorem same (h : Declared cs a) (hsame : a.SameLocals a') (hc : c.local? = none) :
    Declared (cs ++ [c]) a' := by
  have hparam : c.parameter? = none := by
    cases c <;> first | rfl | cases hc
  obtain ⟨hlocals, harity⟩ := hsame
  have hparams : a'.unit.params = a.unit.params := by
    unfold CodeUnit.params
    rw [hlocals, harity]
  constructor
  · simpa [hparams, hparam] using h.params
  · rw [hparams, harity]
    exact h.arity
  · rw [hlocals, harity]
    exact h.others
  · rw [hlocals, harity, hparams]
    exact h.apart
  · intro s
    rw [hlocals]
    simpa [hc] using h.names s

theorem parameter {s : String} (h : Declared cs a) (ha : a.parameter s = .ok (n, a')) :
    Declared (cs ++ [.parameter s]) a' := by
  unfold Assembler.parameter at ha
  split at ha
  · cases ha
  · next hlate =>
    split at ha
    · cases ha
    · next hmany =>
      cases ha
      have hlength : a.unit.locals.length = a.unit.arity.toNat := not_not.mp hlate
      have harity : (a.unit.arity + 1).toNat = (a.unit.locals ++ [s]).length := by
        have hlt : a.unit.arity.toNat ≠ 255 := fun heq => hmany (UInt8.toNat_inj.mp heq)
        have := a.unit.arity.toNat_lt
        rw [UInt8.toNat_add, List.length_append, hlength]
        simp only [UInt8.toNat_one, List.length_singleton]
        omega
      have hparams : (a.unit.locals ++ [s]).take (a.unit.arity + 1).toNat =
          cs.filterMap Command.parameter? ++ [s] := by
        rw [harity, List.take_length, ← h.params, CodeUnit.params, ← hlength, List.take_length]
      constructor
      · simpa [CodeUnit.params, Command.parameter?] using hparams
      · simp [CodeUnit.params, harity]
      · simp [harity]
      · simp [harity]
      · intro t
        simp [h.names t, Command.local?]

theorem declare (h : Declared cs a) (s : String) :
    Declared (cs ++ [.declare s]) (a.declare s).2 := by
  have hle : a.unit.arity.toNat ≤ a.unit.locals.length := by
    rw [← h.arity, CodeUnit.params, List.length_take]
    exact Nat.min_le_right ..
  have hnames : ∀ t, t ∈ (cs ++ [Command.declare s]).filterMap Command.local? ↔
      t ∈ a.unit.locals ∨ t = s := by
    intro t
    rw [h.names]
    simp [Command.local?]
  have hparams : (cs ++ [Command.declare s]).filterMap Command.parameter? = a.unit.params := by
    simp [h.params, Command.parameter?]
  unfold Assembler.declare
  by_cases hs : s ∈ a.unit.locals
  · simp only [List.contains_iff_mem, hs, if_true]
    refine ⟨hparams.symm, h.arity, h.others, h.apart, fun t => ?_⟩
    rw [hnames]
    exact ⟨.inl, fun ht => ht.elim id fun heq => heq ▸ hs⟩
  · simp only [List.contains_iff_mem, hs, if_false]
    have htake : (a.unit.locals ++ [s]).take a.unit.arity.toNat = a.unit.params :=
      List.take_append_of_le_length hle
    have hdrop : (a.unit.locals ++ [s]).drop a.unit.arity.toNat =
        a.unit.locals.drop a.unit.arity.toNat ++ [s] :=
      List.drop_append_of_le_length hle
    constructor
    · exact htake.trans hparams.symm
    · exact (congrArg List.length htake).trans h.arity
    · show ((a.unit.locals ++ [s]).drop a.unit.arity.toNat).Nodup
      rw [hdrop]
      exact List.nodup_append.mpr ⟨h.others, List.nodup_singleton s, by
        rintro t ht _ hs' rfl
        exact hs (List.mem_singleton.mp hs' ▸ List.mem_of_mem_drop ht)⟩
    · show ∀ t ∈ (a.unit.locals ++ [s]).drop a.unit.arity.toNat,
        t ∉ (a.unit.locals ++ [s]).take a.unit.arity.toNat
      rw [hdrop, htake]
      intro t ht
      rcases List.mem_append.mp ht with ht | ht
      · exact h.apart t ht
      · rw [List.mem_singleton.mp ht]
        exact fun hmem => hs (List.mem_of_mem_take hmem)
    · intro t
      rw [hnames]
      simp

theorem apply (h : Declared cs a) (ha : a.apply c checks = .ok (n, a')) :
    Declared (cs ++ [c]) a' := by
  cases hc : c.local? with
  | none => exact h.same (.apply hc ha) hc
  | some s =>
    cases c with
    | parameter s => exact h.parameter ha
    | declare s =>
      cases ha
      exact h.declare s
    | _ => cases hc

theorem applyAll {more : List Command} (h : Declared cs a) (ha : a.applyAll more checks = .ok b) :
    Declared (cs ++ more) b := by
  induction more generalizing cs a with
  | nil =>
    cases ha
    simpa using h
  | cons c more ih =>
    obtain ⟨n, a', hc, hmore⟩ := applyAll_cons ha
    simpa using ih (h.apply hc) hmore

/-- No local comes twice exactly if no parameter does. -/
theorem nodup_iff (h : Declared cs a) :
    a.unit.locals.Nodup ↔ (cs.filterMap Command.parameter?).Nodup := by
  rw [← h.params]
  refine ⟨fun hnodup => hnodup.sublist (List.take_sublist ..), fun hnodup => ?_⟩
  rw [← List.take_append_drop a.unit.arity.toNat a.unit.locals]
  exact List.nodup_append.mpr ⟨hnodup, h.others, fun s hs t ht heq => h.apart t ht (heq ▸ hs)⟩

end Declared

/-- What a finished unit declares is what the commands have declared. -/
theorem assemble_declared {name : String} {unit : CodeUnit}
    (h : assemble name cs checks = .ok unit) : ∃ a, a.unit = unit ∧ Declared cs a := by
  obtain ⟨a, hrun, hunit⟩ := applyAll_of_assemble h
  exact ⟨a, hunit, (declared_start name).applyAll hrun⟩

end Assembler

/-! ## Frames over assembled units -/

namespace Vm

variable {vm : Vm} {method : Ref} {m : Method} {unit : CodeUnit}

/-- A frame is made for every method over a unit. -/
theorem buildFrame_run (hv : vm.Live) (hm : vm.Executable method m unit) :
    ∃ frame fr h', buildFrame method vm = .ok frame { vm with heap := h' } ∧
      vm.heap.NewFrame method unit m.body.bindings frame fr h' := by
  obtain ⟨hmethod, ⟨code, u, hcode, hu, rfl⟩, hvars, hapart⟩ := hm
  have hcallee := callee_run hmethod hcode
  have hunit : codeUnit code vm = .ok u.unit vm := codeUnit_eq_ok.mpr ⟨⟨u, hu, rfl⟩, rfl⟩
  obtain ⟨frame, fr, h', halloc, hnew⟩ := allocFrame_run hv.heap.freeList
    (fun name v hv => (hvars name v hv).contains) method u.unit
  refine ⟨frame, fr, h', ?_, hnew⟩
  unfold buildFrame
  exact (bind_ok hcallee).trans ((bind_ok hunit).trans (bind_ok halloc))

end Vm

/-- There is one variable for each different name. -/
theorem Frame.Declares.size {fr : Frame} {unit : CodeUnit} {bindings : NameMap Ref} {h : Heap}
    (hd : fr.Declares unit bindings h) : fr.locals.size = unit.locals.toFinset.card := by
  have hset : fr.locals.names.toFinset = unit.locals.toFinset := by
    ext name
    rw [List.mem_toFinset, List.mem_toFinset, hd.names]
  rw [← hset, List.toFinset_card_of_nodup hd.nodup, NameMap.names, List.length_map]
  rfl

theorem card_toFinset_eq_length {α : Type} [DecidableEq α] {l : List α} :
    l.toFinset.card = l.length ↔ l.Nodup := by
  rw [List.card_toFinset]
  refine ⟨fun h => ?_, fun h => by rw [h.dedup]⟩
  exact List.dedup_eq_self.mp ((List.dedup_sublist l).eq_of_length h)

namespace Vm

variable {vm : Vm} {method code : Ref} {m : Method} {c : Code} {module : Option Ref}
  {unit : CodeUnit} {name : String} {cs : List Command} {checks : Bool}

theorem executable_of_bytecode (hmethod : vm.heap.payload method = .ok (.method m))
    (hbody : m.body = .bytecode code module) (hcode : vm.heap.payload code = .ok (.code c)) :
    vm.Executable method m c.unit := by
  have hbindings : m.body.bindings = {} := by rw [hbody]; rfl
  refine ⟨hmethod, ⟨code, c, by rw [hbody]; rfl, hcode, rfl⟩, ?_, ?_⟩
  · rw [hbindings]
    rintro _ _ ⟨⟩
  · rw [hbindings]
    rintro _ _ _ ⟨⟩

/-- A frame for a method over an assembled unit has a variable of its own for each different name
among the locals. These are as many as the locals exactly if no parameter was declared twice. When
the method is entered, a parameter has its own argument, unless its name was declared again. -/
theorem assembled_frame (hu : Assembler.assemble name cs checks = .ok unit) (hv : vm.Live)
    (hmethod : vm.heap.payload method = .ok (.method m)) (hbody : m.body = .bytecode code module)
    (hcode : vm.heap.payload code = .ok (.code c)) (hunit : c.unit = unit) :
    (∃ frame fr vm', buildFrame method vm = .ok frame vm' ∧
      vm'.heap.payload frame = .ok (.frame fr) ∧
      fr.locals.values.Nodup ∧ fr.locals.size = unit.locals.toFinset.card ∧
      ∀ x ∈ fr.locals.values, vm.heap.contains x = false ∧ vm'.heap.payload x = .ok (.var none)) ∧
    (unit.locals.toFinset.card = unit.locals.length ↔
      (cs.filterMap Command.parameter?).Nodup) ∧
    ∀ args, (∀ a ∈ args, vm.heap.contains a = true) → vm.callDepth < vm.config.maxFrames →
      (m.receiver.toList ++ args).length = (cs.filterMap Command.parameter?).length →
      ∃ g fr vm', enter method args vm = .ok () vm' ∧ vm'.frames = vm.frames.push g ∧
        vm'.heap.payload g.frame = .ok (.frame fr) ∧
        ∀ (i : Nat) s value, (cs.filterMap Command.parameter?)[i]? = some s →
          (m.receiver.toList ++ args)[i]? = some value →
          (∀ j, i < j → (cs.filterMap Command.parameter?)[j]? ≠ some s) →
          ∃ x, fr.locals.find? s = some x ∧ vm'.heap.payload x = .ok (.var (some value)) := by
  obtain ⟨a, rfl, hd⟩ := Assembler.assemble_declared hu
  have hm := executable_of_bytecode hmethod hbody hcode
  rw [hunit] at hm
  have hbindings : ∀ s, m.body.bindings.find? s = none := fun s => by rw [hbody]; rfl
  refine ⟨?_, card_toFinset_eq_length.trans hd.nodup_iff, ?_⟩
  · obtain ⟨frame, fr, h', hbuild, hnew⟩ := buildFrame_run hv hm
    have hfr := hnew.declares
    refine ⟨frame, fr, _, hbuild, Heap.payload_eq_ok_iff.mpr ⟨_, hnew.object⟩,
      NameMap.values_nodup hfr.nodup (hfr.locals_apart hm.apart), hfr.size, fun x hx => ?_⟩
    obtain ⟨⟨s, y⟩, hmem, rfl⟩ := List.mem_map.mp hx
    have hfound := (NameMap.mem_entries hfr.nodup).mp hmem
    have hs := (hfr.names s).mp (NameMap.mem_names.mpr ⟨y, hfound⟩)
    obtain ⟨z, hz, hfresh⟩ := hfr.own s hs (hbindings s)
    rw [hfound] at hz
    cases hz
    exact ⟨hfresh, Heap.payload_eq_ok_iff.mpr ⟨_, hnew.unbound s hs (hbindings s) y hfound⟩⟩
  · intro args hargs hdepth hlength
    rw [← hd.params] at hlength ⊢
    rcases enter_run hv hm hargs hdepth with ⟨hwrong, -⟩ | ⟨-, g, fr, vm', hrun, -, h, hparam⟩
    · exact absurd (hlength.trans hd.arity) hwrong
    · have hframes : vm'.frames = vm.frames.push g := by rw [h.state]
      exact ⟨g, fr, vm', hrun, hframes, h.object, hparam⟩

/-- The unit of two parameters that are both called `x`. -/
def twins : CodeUnit :=
  { name := "f", locals := ["x", "x"], arity := 2 }

/-- Whether a method has its bytecode in `code`, and this is the unit of the twins. -/
def runsTwins (h : Heap) (method code : Ref) : Bool :=
  okAnd (h.payload method) (fun
    | .method ⟨_, .bytecode c _, none⟩ => c == code
    | _ => false) &&
  okAnd (h.payload code) fun
    | .code ⟨⟨name, code, consts, names, locals, freevars, arity⟩, _⟩ =>
      name == twins.name && code == twins.code && consts.isEmpty && names == twins.names &&
        locals == twins.locals && freevars == twins.freevars && arity == twins.arity
    | _ => false

theorem runsTwins_eq_true {h : Heap} (hruns : runsTwins h method code = true) :
    ∃ m module c, h.payload method = .ok (.method m) ∧ m.body = .bytecode code module ∧
      m.receiver = none ∧ h.payload code = .ok (.code c) ∧ c.unit = twins := by
  simp only [runsTwins, Bool.and_eq_true, okAnd_eq_true] at hruns
  obtain ⟨⟨p, hp, hmethod⟩, q, hq, hcode⟩ := hruns
  split at hmethod
  case h_1 n c module =>
    split at hcode
    case h_1 =>
      simp only [Bool.and_eq_true, beq_iff_eq, List.isEmpty_iff] at hmethod hcode
      obtain ⟨⟨⟨⟨⟨⟨rfl, rfl⟩, rfl⟩, rfl⟩, rfl⟩, rfl⟩, rfl⟩ := hcode
      exact ⟨_, module, _, hp, congrArg (Body.bytecode · module) hmethod, rfl, hq, rfl⟩
    case h_2 => cases hcode
  case h_2 => cases hmethod

/-- Two parameters of one name have one variable, and the first argument is lost. -/
theorem assembled_frame_twins :
    Assembler.assemble "f" [.parameter "x", .parameter "x"] = .ok twins ∧
    ∃ vm, (Session.boot {} {} 0 ⟨0, 0⟩).Reaches (.idle vm) ∧
      (∃ frame vm' fr, buildFrame ⟨0, 44, 0⟩ vm = .ok frame vm' ∧
        vm'.heap.payload frame = .ok (.frame fr) ∧ fr.locals.size = 1) ∧
      ∃ vm' g fr x, enter ⟨0, 44, 0⟩ [nilRef 0, boolRef 0 true] vm = .ok () vm' ∧
        vm'.frames = vm.frames.push g ∧ vm'.heap.payload g.frame = .ok (.frame fr) ∧
        fr.locals.find? "x" = some x ∧
        vm'.heap.payload x = .ok (.var (some (boolRef 0 true))) := by
  have hu : Assembler.assemble "f" [.parameter "x", .parameter "x"] = .ok twins := rfl
  have hrun : ((Session.follow? [.operate (.method twins) []]
      (Session.boot {} {} 0 ⟨0, 0⟩)).bind Session.idle?).any (fun vm =>
        vm.heap.contains (nilRef 0) && vm.heap.contains (boolRef 0 true) &&
        decide (vm.callDepth < vm.config.maxFrames) && runsTwins vm.heap ⟨0, 44, 0⟩ ⟨0, 43, 0⟩) =
      true := by
    decide +kernel
  obtain ⟨vm, hidle, hrun⟩ := (Option.any_eq_true _ _).mp hrun
  simp only [Bool.and_eq_true, decide_eq_true_eq] at hrun
  obtain ⟨⟨⟨hnil, htrue⟩, hdepth⟩, hruns⟩ := hrun
  have hby : (Session.boot {} {} 0 ⟨0, 0⟩).ReachesBy (fun _ _ => False) (fun _ _ _ => True)
      (.idle vm) := Session.follow?_idle (fun _ _ _ _ => trivial) hidle
  have hreach := hby.reaches
  have hlive : vm.Live := (Session.orderly {} {} 0 ⟨0, 0⟩ hreach).live
  obtain ⟨m, module, c, hmethod, hbody, hreceiver, hcode, hunit⟩ := runsTwins_eq_true hruns
  obtain ⟨⟨frame, fr, vm₁, hbuild, hframe, -, hsize, -⟩, -, henter⟩ :=
    assembled_frame hu hlive hmethod hbody hcode hunit
  have hargs : ∀ a ∈ [nilRef 0, boolRef 0 true], vm.heap.contains a = true := by
    simp [hnil, htrue]
  obtain ⟨g, fr', vm₂, hrun, hframes, hobject, hparam⟩ := henter _ hargs hdepth (by
    rw [hreceiver]
    rfl)
  obtain ⟨x, hx, hvalue⟩ := hparam 1 "x" (boolRef 0 true) rfl (by rw [hreceiver]; rfl) (by
    intro j hj
    have hnone : [Command.parameter "x", .parameter "x"].filterMap Command.parameter? =
        ["x", "x"] := rfl
    rw [hnone, List.getElem?_eq_none (by simp; omega)]
    nofun)
  exact ⟨hu, vm, hreach, ⟨frame, vm₁, fr, hbuild, hframe, hsize.trans (by decide)⟩, vm₂, g, fr', x,
    hrun, hframes, hobject, hx, hvalue⟩

end Vm
end ObjectMachine
