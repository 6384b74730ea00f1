import ObjectMachine.Proofs.Scopes.Activations

/-!
# ObjectMachine.Proofs.Vm.Crediting

No question to a heap depends on which method a frame names.

A frame names the method that it runs, but the code, the module and the receiver of the method are
taken from it only once, when the frame is made. Afterwards the method is kept alive, and its name is
shown when the frame is displayed. A frame that names another method of that name is therefore as
good.

* `Heap.credit`, `Vm.credit` — the same state, with another method for one frame.
* `Heap.Credible` — the other method has the name of the frame's own.
* `Payload.Anonymous` — a function of payloads that does not look at the method of a frame.
* `Unaware` — a question to the heap that has the same answer in both states.
-/

namespace ObjectMachine

/-! ## Frames with another method -/

/-- A frame names another method; nothing else changes. -/
def Payload.credit (b : Ref) : Payload → Payload
  | .frame f => .frame { f with method := b }
  | p => p

/-- The function does not look at the method of a frame. -/
def Payload.Anonymous {β : Type} (q : Payload → β) : Prop :=
  ∀ b p, q (p.credit b) = q p

def Heap.credit (r b : Ref) (h : Heap) : Heap :=
  h.update r (Payload.credit b)

def ActiveFrame.credit (r b : Ref) (f : ActiveFrame) : ActiveFrame :=
  if f.frame = r then { f with method := b } else f

/-- The frame `r` is said to run the method `b`, in the heap and among the active frames. -/
def Vm.credit (r b : Ref) (vm : Vm) : Vm :=
  { vm with
    heap := vm.heap.credit r b
    frames := vm.frames.map (ActiveFrame.credit r b) }

/-- The object `r` is a frame, and `b` a method of the same name as the method of the frame. -/
def Heap.Credible (r b : Ref) (h : Heap) : Prop :=
  ∃ f m m', h.payload r = .ok (.frame f) ∧ h.payload f.method = .ok (.method m) ∧
    h.payload b = .ok (.method m') ∧ m'.name = m.name

namespace Heap

variable {h : Heap} {r b : Ref}

@[simp] theorem credit_id : (h.credit r b).id = h.id := rfl

@[simp] theorem credit_nesting : (h.credit r b).nesting = h.nesting := rfl

@[simp] theorem credit_cells_size : (h.credit r b).cells.size = h.cells.size := by
  simp [credit, update]

theorem get_credit (x : Ref) : (h.credit r b).get x =
    (h.get x).map fun o => if r.cell = x.cell then { o with payload := o.payload.credit b } else o :=
  get_update h r _ x

/-- Only frames differ, and only in their method. -/
theorem get_credit_cases (x : Ref) : (h.credit r b).get x = h.get x ∨
    ∃ k f, h.get x = .ok ⟨k, .frame f⟩ ∧ r.cell = x.cell ∧
      (h.credit r b).get x = .ok ⟨k, .frame { f with method := b }⟩ := by
  rw [get_credit]
  cases h.get x with
  | error e => exact .inl rfl
  | ok o =>
    obtain ⟨k, p⟩ := o
    by_cases hcell : r.cell = x.cell
    · cases p with
      | frame f => exact .inr ⟨k, f, rfl, hcell, by simp [Except.map, hcell, Payload.credit]⟩
      | _ => exact .inl (by simp [Except.map, hcell, Payload.credit])
    · exact .inl (by simp [Except.map, hcell])

theorem payload_credit_cases (x : Ref) : (h.credit r b).payload x = h.payload x ∨
    ∃ f, h.payload x = .ok (.frame f) ∧
      (h.credit r b).payload x = .ok (.frame { f with method := b }) := by
  unfold payload
  rcases get_credit_cases (h := h) (r := r) (b := b) x with hx | ⟨k, f, hx, -, hx'⟩
  · exact .inl (by rw [hx])
  · exact .inr ⟨f, by rw [hx], by rw [hx']⟩

theorem Credible.contains (hc : h.Credible r b) : h.contains r = true := by
  obtain ⟨f, -, -, hr, -⟩ := hc
  exact contains_of_payload hr

end Heap

/-! ## Questions -/

/-- A question to the heap that has the same answer whichever method of its name a frame names. -/
class Unaware {β : Type} (q : Heap → β) : Prop where
  same : ∀ r b h, h.Credible r b → q (h.credit r b) = q h

namespace Heap

variable {h : Heap} {r b : Ref}

/-! Look-up in the class chain -/

theorem classOf_credit (x : Ref) : (h.credit r b).classOf x = h.classOf x := by
  unfold classOf
  rcases get_credit_cases (h := h) (r := r) (b := b) x with hx | ⟨k, f, hx, -, hx'⟩
  · rw [hx]
  · rw [hx, hx']

theorem cls_credit (x : Ref) : (h.credit r b).cls x = h.cls x := by
  unfold cls
  rcases payload_credit_cases (h := h) (r := r) (b := b) x with hx | ⟨f, hx, hx'⟩
  · rw [hx]
  · rw [hx, hx']
    rfl

theorem className_credit (x : Ref) : (h.credit r b).className x = h.className x := by
  simp only [className, classOf_credit, cls_credit]

theorem findFrom_credit {α : Type} (pick : Class → Option α) (fuel : Nat) (x : Ref) :
    (h.credit r b).findFrom pick fuel x = h.findFrom pick fuel x := by
  induction fuel generalizing x with
  | zero => rfl
  | succ fuel ih => simp only [findFrom, cls_credit, ih]

theorem findInChain_credit {α : Type} (pick : Class → Option α) (x : Ref) :
    (h.credit r b).findInChain pick x = h.findInChain pick x := by
  simp only [findInChain, credit_cells_size, findFrom_credit]

theorem findSlot_credit {α : Type} (pick : Slots → Option α) (x : Ref) :
    (h.credit r b).findSlot pick x = h.findSlot pick x :=
  findInChain_credit _ x

theorem requireSlot_credit {α : Type} (slot : Slot) (pick : Slots → Option α) (x : Ref) :
    (h.credit r b).requireSlot slot pick x = h.requireSlot slot pick x := by
  simp only [requireSlot, findSlot_credit, cls_credit]

theorem lookupMethod_credit (x : Ref) (name : String) :
    (h.credit r b).lookupMethod x name = h.lookupMethod x name :=
  findInChain_credit _ x

/-! Comparison and truth -/

theorem cmpFn_run_credit (f : CmpFn) (cmp : Comparison) (x y : Ref) :
    f.run (h.credit r b) cmp x y = f.run h cmp x y := by
  rcases payload_credit_cases (h := h) (r := r) (b := b) x with hx | ⟨f, hx, hx'⟩ <;>
    rcases payload_credit_cases (h := h) (r := r) (b := b) y with hy | ⟨g, hy, hy'⟩ <;>
    cases f <;> simp only [CmpFn.run, *] <;> rfl

theorem compareLeft_credit (cmp : Comparison) (x y : Ref) :
    (h.credit r b).compareLeft cmp x y = h.compareLeft cmp x y := by
  simp only [compareLeft, classOf_credit, findSlot_credit, cmpFn_run_credit]

theorem compareWithin_credit (levels : Nat) (x y : Ref) :
    (h.credit r b).compareWithin levels x y = h.compareWithin levels x y := by
  induction levels generalizing x y with
  | zero => rfl
  | succ levels ih =>
    have hinner : (h.credit r b).compareWithin levels = h.compareWithin levels :=
      funext fun x => funext fun y => ih x y
    simp only [compareWithin, compareLeft_credit, hinner]

theorem compare_credit (x y : Ref) : (h.credit r b).compare x y = h.compare x y := by
  rw [compare, compare, credit_nesting, compareWithin_credit]

theorem equals_credit (x y : Ref) : (h.credit r b).equals x y = h.equals x y := by
  rw [equals, equals, compare_credit]

theorem position?_credit (t : HashTable) (key : Ref) :
    (h.credit r b).position? t key = h.position? t key := by
  have hcompare : (h.credit r b).compare = h.compare :=
    funext fun x => funext fun y => compare_credit x y
  rw [position?, position?, hcompare]

theorem truthy_credit (x : Ref) : (h.credit r b).truthy x = h.truthy x := by
  unfold truthy
  rcases get_credit_cases (h := h) (r := r) (b := b) x with hx | ⟨k, f, hx, -, hx'⟩
  · simp only [hx, requireSlot_credit]
  · have hrun : ∀ g : NonzeroFn, g.run (.frame { f with method := b }) = g.run (.frame f) := by
      intro g
      cases g <;> rfl
    simp only [hx, hx', requireSlot_credit]
    show (h.requireSlot .nonzero Slots.nonzero k >>= fun g =>
      pure (g.run (.frame { f with method := b }))) = _
    simp only [hrun]
    rfl

/-! Display -/

/-- A display function looks at the name of the method of a frame only. -/
theorem strFn_run_credit (f : StrFn) (print : Printer) (x : Ref) (o : Obj) :
    f.run (h.credit r b) print x o = f.run h print x o := by
  obtain ⟨k, p⟩ := o
  cases f with
  | frame =>
    cases p with
    | frame g =>
      rcases payload_credit_cases (h := h) (r := r) (b := b) g.method with hy | ⟨g', hy, hy'⟩
      · simp only [StrFn.run, hy]
      · simp only [StrFn.run, hy, hy']
        rfl
    | _ => rfl
  | object => simp only [StrFn.run, cls_credit]
  | cls => simp only [StrFn.run, cls_credit]
  | var =>
    cases p with
    | var value => cases value <;> rfl
    | _ => rfl
  | bool =>
    cases p with
    | bool b => cases b <;> rfl
    | _ => rfl
  | _ => cases p <;> rfl

/-- The frame itself is shown by the name of its method. -/
theorem strFn_run_credited (hc : h.Credible r b) {k : Ref} {f : Frame}
    (hr : h.get r = .ok ⟨k, .frame f⟩) (g : StrFn) (print : Printer) :
    g.run (h.credit r b) print r ⟨k, .frame { f with method := b }⟩ =
      g.run h print r ⟨k, .frame f⟩ := by
  rw [strFn_run_credit]
  cases g with
  | frame =>
    obtain ⟨f', m, m', hr', hm, hb, hname⟩ := hc
    rw [payload_eq_ok_iff.mpr ⟨k, hr⟩] at hr'
    cases hr'
    simp only [StrFn.run, hm, hb, hname, bind, Except.bind]
  | _ => rfl

theorem displayWithin_credit (hc : h.Credible r b) (levels : Nat) (x : Ref) :
    (h.credit r b).displayWithin levels x = h.displayWithin levels x := by
  induction levels generalizing x with
  | zero => rfl
  | succ levels ih =>
    have hinner : (h.credit r b).displayWithin levels = h.displayWithin levels := funext ih
    rcases get_credit_cases (h := h) (r := r) (b := b) x with hx | ⟨k, f, hx, hcell, hx'⟩
    · simp only [displayWithin, hx, cls_credit, strFn_run_credit, hinner]
    · obtain rfl := eq_of_cell_eq hc.contains (contains_of_get hx) hcell
      simp only [displayWithin, hx, hx', cls_credit, hinner, bind, Except.bind]
      cases h.cls k with
      | error e => rfl
      | ok c =>
        dsimp only
        cases c.slots.str with
        | none => rfl
        | some g => exact strFn_run_credited hc hx g _

theorem display_credit (hc : h.Credible r b) (x : Ref) :
    (h.credit r b).display x = h.display x := by
  rw [display, display, credit_nesting, displayWithin_credit hc]

/-! Copies -/

theorem asking_credit {β : Type} {q : Payload → Except Stop β} (hq : Payload.Anonymous q)
    (x : Ref) : (asking ((h.credit r b).payload x) >>= q) = (asking (h.payload x) >>= q) := by
  rcases payload_credit_cases (h := h) (r := r) (b := b) x with hx | ⟨f, hx, hx'⟩
  · rw [hx]
  · rw [hx, hx']
    exact hq b (.frame f)

theorem unitOf_credit (x : Ref) : (h.credit r b).unitOf x = h.unitOf x :=
  asking_credit (fun b p => by cases p <;> rfl) x

theorem moduleNameOf_credit (module : Option Ref) :
    (h.credit r b).moduleNameOf module = h.moduleNameOf module := by
  cases module with
  | none => rfl
  | some m => exact asking_credit (fun b p => by cases p <;> rfl) m

theorem packBindings_credit (pack : Packer) (bindings : List (String × Ref)) :
    (h.credit r b).packBindings pack bindings = h.packBindings pack bindings := by
  induction bindings with
  | nil => rfl
  | cons e rest ih =>
    obtain ⟨name, var⟩ := e
    simp only [packBindings, ih]
    exact asking_credit (fun b p => by cases p <;> rfl) var

theorem packBody_credit (pack : Packer) (body : Body) :
    (h.credit r b).packBody pack body = h.packBody pack body := by
  cases body <;> simp only [packBody, packBindings_credit, unitOf_credit, moduleNameOf_credit]

theorem packWithin_credit (levels : Nat) (x : Ref) :
    (h.credit r b).packWithin levels x = h.packWithin levels x := by
  induction levels generalizing x with
  | zero => rfl
  | succ levels ih =>
    have hinner : (h.credit r b).packWithin levels = h.packWithin levels := funext ih
    simp only [packWithin, hinner, packBody_credit, className_credit]
    exact asking_credit (fun b p => by cases p <;> rfl) x

theorem pack_credit (x : Ref) : (h.credit r b).pack x = h.pack x :=
  packWithin_credit _ x

end Heap

namespace Unaware

open Heap

instance classOf (x : Ref) : Unaware fun h => h.classOf x := ⟨fun _ _ _ _ => classOf_credit x⟩

instance cls (x : Ref) : Unaware fun h => h.cls x := ⟨fun _ _ _ _ => cls_credit x⟩

instance className (x : Ref) : Unaware fun h => h.className x := ⟨fun _ _ _ _ => className_credit x⟩

instance requireSlot {α : Type} (slot : Slot) (pick : Slots → Option α) (x : Ref) :
    Unaware fun h => h.requireSlot slot pick x :=
  ⟨fun _ _ _ _ => requireSlot_credit slot pick x⟩

instance lookupMethod (x : Ref) (name : String) : Unaware fun h => h.lookupMethod x name :=
  ⟨fun _ _ _ _ => lookupMethod_credit x name⟩

instance compare (x y : Ref) : Unaware fun h => h.compare x y := ⟨fun _ _ _ _ => compare_credit x y⟩

instance equals (x y : Ref) : Unaware fun h => h.equals x y := ⟨fun _ _ _ _ => equals_credit x y⟩

instance position? (t : HashTable) (key : Ref) : Unaware fun h => h.position? t key :=
  ⟨fun _ _ _ _ => position?_credit t key⟩

instance truthy (x : Ref) : Unaware fun h => h.truthy x := ⟨fun _ _ _ _ => truthy_credit x⟩

instance display (x : Ref) : Unaware fun h => h.display x := ⟨fun _ _ _ hc => display_credit hc x⟩

instance displays (values : List Ref) : Unaware fun h => values.mapM h.display := by
  refine ⟨fun r b h hc => ?_⟩
  have hdisplay : (h.credit r b).display = h.display := funext (display_credit hc)
  simp only [hdisplay]

instance pack (x : Ref) : Unaware fun h => h.pack x := ⟨fun _ _ _ _ => pack_credit x⟩

/-- Questions one after the other. -/
instance bind {α β : Type} (q : Heap → Except Fatal α) (f : α → Heap → Except Fatal β)
    [hq : Unaware q] [hf : ∀ x, Unaware (f x)] : Unaware fun h => q h >>= fun x => f x h := by
  refine ⟨fun r b h hc => ?_⟩
  have hrest : (fun x => f x (h.credit r b)) = fun x => f x h :=
    funext fun x => (hf x).same r b h hc
  simp only [hq.same r b h hc, hrest]

end Unaware

/-! ## Tasks -/

namespace ActiveFrame

variable (r b : Ref) (f : ActiveFrame)

/-- All that an active frame has beside its method stays. -/
theorem credit_cases : f.credit r b = f ∨ f.credit r b = { f with method := b } := by
  unfold credit
  split
  · exact .inr rfl
  · exact .inl rfl

@[simp] theorem credit_frame : (f.credit r b).frame = f.frame := by
  unfold credit; split <;> rfl

@[simp] theorem credit_unit : (f.credit r b).unit = f.unit := by
  unfold credit; split <;> rfl

@[simp] theorem credit_ip : (f.credit r b).ip = f.ip := by
  unfold credit; split <;> rfl

end ActiveFrame

namespace Vm

variable (r b : Ref) (vm : Vm)

@[simp] theorem credit_frames_size : (vm.credit r b).frames.size = vm.frames.size := by
  simp [credit]

@[simp] theorem credit_callDepth : (vm.credit r b).callDepth = vm.callDepth := by
  rw [callDepth, callDepth, credit_frames_size]
  rfl

@[simp] theorem credit_backtrace : (vm.credit r b).backtrace = vm.backtrace := by
  simp [credit, backtrace, List.map_reverse, List.map_map, Function.comp_def]

end Vm
end ObjectMachine
