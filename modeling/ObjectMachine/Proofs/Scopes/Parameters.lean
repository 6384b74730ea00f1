import ObjectMachine.Proofs.Classes.Instances
import ObjectMachine.Proofs.Machine.CallEnds

/-!
# ObjectMachine.Proofs.Scopes.Parameters

Which variables a frame has, and what they hold when its method begins.

* `Frame.Declares` — one variable for each declared name: the captured one, or one of its own.
* `Vm.allocFrame_run` — a new frame has these, and the heap has nothing else that is new.
* `Vm.assigned`, `Vm.bindParams_run` — a variable gets the last argument that is meant for it.
* `Vm.Entered` — a method was entered.
* `Vm.enter_entered` — it is entered exactly if it gets as many arguments as it wants.
-/

namespace ObjectMachine

open ObjectMachine.Action

/-! ## Names of a map -/

namespace NameMap

variable {α : Type} {m : NameMap α}

/-- No value comes twice if no two names have the same one. -/
theorem values_nodup (h : m.names.Nodup)
    (hinj : ∀ a b v, m.find? a = some v → m.find? b = some v → a = b) : m.values.Nodup := by
  refine List.Nodup.map_on ?_ (List.Nodup.of_map _ h)
  rintro ⟨a, v⟩ ha ⟨b, w⟩ hb rfl
  rw [hinj a b v ((mem_entries h).mp ha) ((mem_entries h).mp hb)]

end NameMap

/-! ## The variables of a new frame -/

/-- A variable without a value. -/
def Heap.unbound (h : Heap) : Obj :=
  ⟨Builtin.var.ref h.id, .var none⟩

/-- There are some more variables, all of them without a value. -/
structure Heap.GetsVars (h h' : Heap) : Prop where
  id : h'.id = h.id
  roots : h'.roots = h.roots
  freeList : h'.FreeList
  kept : ∀ {r o}, h.get r = .ok o → h'.get r = .ok o
  added : ∀ {r o}, h'.get r = .ok o → h.get r = .ok o ∨ h.contains r = false ∧ o = h.unbound

namespace Heap.GetsVars

variable {h h₁ h₂ : Heap}

theorem refl (hf : h.FreeList) : h.GetsVars h :=
  ⟨rfl, rfl, hf, fun ho => ho, .inl⟩

theorem contains (hg : h.GetsVars h₁) {r : Ref} (hr : h.contains r = true) :
    h₁.contains r = true := by
  obtain ⟨o, ho⟩ := contains_iff.mp hr
  exact contains_of_get (hg.kept ho)

theorem fresh (hg : h.GetsVars h₁) {r : Ref} (hr : h₁.contains r = false) :
    h.contains r = false := by
  by_contra hold
  rw [hg.contains (by simpa using hold)] at hr
  cases hr

theorem trans (hg : h.GetsVars h₁) (hg' : h₁.GetsVars h₂) : h.GetsVars h₂ where
  id := hg'.id.trans hg.id
  roots := hg'.roots.trans hg.roots
  freeList := hg'.freeList
  kept ho := hg'.kept (hg.kept ho)
  added ho := by
    rcases hg'.added ho with ho | ⟨hfresh, rfl⟩
    · exact hg.added ho
    · exact .inr ⟨hg.fresh hfresh, by unfold Heap.unbound; rw [hg.id]⟩

theorem place (hf : h.FreeList) : h.GetsVars (h.place h.unbound).2 where
  id := place_id h _
  roots := place_roots h _
  freeList := place_freeList hf _
  kept ho := get_place_of_get hf _ ho
  added ho := by
    rcases get_place_cases hf _ ho with ⟨rfl, rfl⟩ | ho
    · exact .inr ⟨place_fresh hf _, rfl⟩
    · exact .inl ho

end Heap.GetsVars

/-- The variables that a frame gets: a captured name keeps its variable, be it a local or not, and
every other local has one of its own, which was not in the heap `h` before. -/
structure Frame.Declares (fr : Frame) (unit : CodeUnit) (bindings : NameMap Ref) (h : Heap) :
    Prop where
  nodup : fr.locals.names.Nodup
  names : ∀ name, name ∈ fr.locals.names ↔ name ∈ unit.locals
  captured : ∀ name ∈ unit.locals, ∀ v, bindings.find? name = some v →
    fr.locals.find? name = some v
  own : ∀ name ∈ unit.locals, bindings.find? name = none →
    ∃ v, fr.locals.find? name = some v ∧ h.contains v = false
  apart : ∀ name other v, bindings.find? name = none → fr.locals.find? name = some v →
    fr.locals.find? other = some v → name = other
  free : ∀ name, fr.free.find? name =
    if name ∈ unit.freevars ∧ name ∉ unit.locals then bindings.find? name else none

namespace Vm

variable {vm vm' : Vm} {bindings locals : NameMap Ref}

/-- The first local gets its captured variable, or a new one. -/
theorem makeLocals_step (hf : vm.heap.FreeList) (bindings : NameMap Ref) (first : String)
    (rest : List String) (locals : NameMap Ref) :
    ∃ var h', makeLocals bindings (first :: rest) locals vm =
        makeLocals bindings rest (locals.insert first var) { vm with heap := h' } ∧
      vm.heap.GetsVars h' ∧
      (bindings.find? first = some var ∨
        bindings.find? first = none ∧ vm.heap.contains var = false ∧
          h'.get var = .ok vm.heap.unbound) := by
  rw [makeLocals]
  cases hfirst : bindings.find? first with
  | some var => exact ⟨var, vm.heap, rfl, .refl hf, .inl rfl⟩
  | none =>
    have hvar : newVar none vm = .ok (vm.heap.place vm.heap.unbound).1
        { vm with heap := (vm.heap.place vm.heap.unbound).2 } := new_eq vm .var _
    exact ⟨_, _, bind_ok hvar, .place hf,
      .inr ⟨rfl, Heap.place_fresh hf _, (Heap.get_place hf _ _).trans (if_pos rfl)⟩⟩

theorem makeLocals_run (hf : vm.heap.FreeList) (bindings : NameMap Ref) (names : List String)
    (locals : NameMap Ref) :
    ∃ made h', makeLocals bindings names locals vm = .ok made { vm with heap := h' } ∧
      vm.heap.GetsVars h' := by
  induction names generalizing vm locals with
  | nil => exact ⟨locals, vm.heap, rfl, .refl hf⟩
  | cons first rest ih =>
    obtain ⟨var, h₁, hstep, hgets, -⟩ := makeLocals_step hf bindings first rest locals
    have hf₁ : ({ vm with heap := h₁ } : Vm).heap.FreeList := hgets.freeList
    obtain ⟨made, h₂, hrun, hgets'⟩ := ih hf₁ (locals.insert first var)
    exact ⟨made, h₂, hstep.trans hrun, hgets.trans hgets'⟩

theorem makeLocals_names {names : List String} {made : NameMap Ref} (hf : vm.heap.FreeList)
    (h : makeLocals bindings names locals vm = .ok made vm') :
    (locals.names.Nodup → made.names.Nodup) ∧
      ∀ name, name ∈ made.names ↔ name ∈ names ∨ name ∈ locals.names := by
  induction names generalizing locals vm with
  | nil =>
    obtain ⟨rfl, -⟩ := pure_eq_ok.mp h
    exact ⟨id, fun _ => ⟨.inr, fun h => h.resolve_left nofun⟩⟩
  | cons first rest ih =>
    obtain ⟨var, h₁, hstep, hgets, -⟩ := makeLocals_step hf bindings first rest locals
    have hf₁ : ({ vm with heap := h₁ } : Vm).heap.FreeList := hgets.freeList
    obtain ⟨hnodup, hnames⟩ := ih hf₁ (hstep ▸ h)
    refine ⟨fun hlocals => hnodup (NameMap.names_insert_nodup hlocals), fun name => ?_⟩
    rw [hnames, NameMap.mem_names_insert, List.mem_cons]
    tauto

/-- A local that is not captured has a variable of its own, without a value. -/
theorem makeLocals_own {names : List String} {made : NameMap Ref} (hf : vm.heap.FreeList)
    (h : makeLocals bindings names locals vm = .ok made vm') {name : String}
    (hname : name ∈ names) (hnone : bindings.find? name = none) :
    ∃ v, made.find? name = some v ∧ vm.heap.contains v = false ∧
      vm'.heap.get v = .ok vm.heap.unbound := by
  induction names generalizing locals vm with
  | nil => cases hname
  | cons first rest ih =>
    obtain ⟨var, h₁, hstep, hgets, hvar⟩ := makeLocals_step hf bindings first rest locals
    rw [hstep] at h
    have hf₁ : ({ vm with heap := h₁ } : Vm).heap.FreeList := hgets.freeList
    by_cases hrest : name ∈ rest
    · obtain ⟨v, hv, hfresh, hunbound⟩ := ih hf₁ h hrest
      refine ⟨v, hv, hgets.fresh hfresh, hunbound.trans ?_⟩
      unfold Heap.unbound
      rw [hgets.id]
    · obtain rfl := (List.mem_cons.mp hname).resolve_right hrest
      obtain ⟨-, hfresh, hunbound⟩ := hvar.resolve_left (by simp [hnone])
      obtain ⟨made', h₂, hrun, hgets'⟩ :=
        makeLocals_run hf₁ bindings rest (locals.insert name var)
      have hfound := (makeLocals_find? hf₁ h).2.1 name hrest
      rw [h] at hrun
      cases hrun
      exact ⟨var, hfound.trans (NameMap.find?_insert_self ..), hfresh, hgets'.kept hunbound⟩

/-- No other name has the variable of a local that is not captured. The variables that are there
before the locals are made are those in `locals`. -/
theorem makeLocals_apart {names : List String} {made : NameMap Ref} (hf : vm.heap.FreeList)
    (hbindings : ∀ name v, bindings.find? name = some v → vm.heap.contains v = true)
    (hlocals : ∀ name v, locals.find? name = some v → vm.heap.contains v = true)
    (h : makeLocals bindings names locals vm = .ok made vm') {name other : String} {v : Ref}
    (hname : name ∈ names) (hnone : bindings.find? name = none) (hv : made.find? name = some v)
    (hother : made.find? other = some v) : name = other := by
  induction names generalizing locals vm with
  | nil => cases hname
  | cons first rest ih =>
    obtain ⟨var, h₁, hstep, hgets, hvar⟩ := makeLocals_step hf bindings first rest locals
    rw [hstep] at h
    have hf₁ : ({ vm with heap := h₁ } : Vm).heap.FreeList := hgets.freeList
    have hfind := makeLocals_find? hf₁ h
    by_cases hrest : name ∈ rest
    · refine ih hf₁ (fun n w hw => hgets.contains (hbindings n w hw)) (fun n w hw => ?_) h hrest
      by_cases heq : n = first
      · subst heq
        rw [NameMap.find?_insert_self] at hw
        cases hw
        exact hvar.elim (fun hb => hgets.contains (hbindings n var hb)) fun hb =>
          Heap.contains_of_get hb.2.2
      · rw [NameMap.find?_insert_ne heq] at hw
        exact hgets.contains (hlocals n w hw)
    · -- the first name: its variable is new, so that nothing else can have it
      obtain rfl := (List.mem_cons.mp hname).resolve_right hrest
      obtain ⟨-, hfresh, hunbound⟩ := hvar.resolve_left (by simp [hnone])
      have hfound := (hfind.2.1 name hrest).trans (NameMap.find?_insert_self ..)
      rw [hv] at hfound
      cases hfound
      by_contra hne
      rcases hfind.2.2 other v hother with hb | hb | hb
      · rw [hbindings other v hb] at hfresh
        cases hfresh
      · rw [NameMap.find?_insert_ne (Ne.symm hne)] at hb
        rw [hlocals other v hb] at hfresh
        cases hfresh
      · rw [show h₁.contains v = true from Heap.contains_of_get hunbound] at hb
        cases hb

/-- The free variables are the captured ones that are not locals. -/
theorem find?_freeVars (bindings locals : NameMap Ref) (names : List String) (free : NameMap Ref)
    (name : String) :
    (freeVars bindings locals names free).find? name =
      (if name ∈ names ∧ locals.find? name = none then bindings.find? name else none).or
        (free.find? name) := by
  induction names generalizing free with
  | nil => simp [freeVars]
  | cons first rest ih =>
    unfold freeVars
    by_cases heq : name = first
    · subst heq
      split
      · next hlocal =>
        obtain ⟨v, hv⟩ := Option.isSome_iff_exists.mp hlocal
        simp [ih, hv]
      · next hlocal =>
        have hnone : locals.find? name = none := by simpa [NameMap.contains] using hlocal
        split
        · next v hv =>
          simp only [ih, hnone, hv, NameMap.find?_insert_self, List.mem_cons_self, and_true]
          split <;> rfl
        · next hv => simp [ih, hnone, hv]
    · split
      · simp [ih, heq]
      · split
        · simp [ih, heq, NameMap.find?_insert_ne heq]
        · simp [ih, heq]

end Vm

/-- A new frame object, together with the variables of its own. -/
structure Heap.NewFrame (h : Heap) (method : Ref) (unit : CodeUnit) (bindings : NameMap Ref)
    (frame : Ref) (fr : Frame) (h' : Heap) : Prop where
  id : h'.id = h.id
  roots : h'.roots = h.roots
  freeList : h'.FreeList
  method : fr.method = method
  declares : fr.Declares unit bindings h
  fresh : h.contains frame = false
  object : h'.get frame = .ok ⟨Builtin.frame.ref h.id, .frame fr⟩
  unbound : ∀ name ∈ unit.locals, bindings.find? name = none → ∀ v,
    fr.locals.find? name = some v → h'.get v = .ok h.unbound
  kept : ∀ {r o}, h.get r = .ok o → h'.get r = .ok o
  added : ∀ {r o}, h'.get r = .ok o →
    h.get r = .ok o ∨ r = frame ∨ h.contains r = false ∧ o = h.unbound

namespace Vm

variable {vm vm' : Vm} {bindings locals : NameMap Ref}

theorem allocFrame_run (hf : vm.heap.FreeList)
    (hbindings : ∀ name v, bindings.find? name = some v → vm.heap.contains v = true)
    (method : Ref) (unit : CodeUnit) :
    ∃ frame fr h', allocFrame method unit bindings vm =
        .ok (frame, fr.locals) { vm with heap := h' } ∧
      vm.heap.NewFrame method unit bindings frame fr h' := by
  obtain ⟨made, h₁, hrun, hgets⟩ := makeLocals_run hf bindings unit.locals {}
  obtain ⟨hnodup, hnames⟩ := makeLocals_names hf hrun
  obtain ⟨hcaptured, hother, -⟩ := makeLocals_find? hf hrun
  have hnames' : ∀ name, name ∈ made.names ↔ name ∈ unit.locals := by
    simpa [NameMap.names] using hnames
  have hfree := hgets.freeList
  let fr : Frame := ⟨method, made, freeVars bindings made unit.freevars {}⟩
  let o : Obj := ⟨Builtin.frame.ref h₁.id, .frame fr⟩
  have hnew : allocFrame method unit bindings vm =
      .ok ((h₁.place o).1, fr.locals) { vm with heap := (h₁.place o).2 } := by
    unfold allocFrame
    exact (bind_ok hrun).trans (bind_ok (new_eq { vm with heap := h₁ } .frame (.frame fr)))
  have hkept : ∀ {r p}, h₁.get r = .ok p → (h₁.place o).2.get r = .ok p :=
    Heap.get_place_of_get hfree o
  refine ⟨_, fr, _, hnew, ?_⟩
  refine { id := (Heap.place_id ..).trans hgets.id,
           roots := (Heap.place_roots ..).trans hgets.roots,
           freeList := Heap.place_freeList hfree o, method := rfl, declares := ?_, unbound := ?_,
           fresh := hgets.fresh (Heap.place_fresh hfree o), object := ?_,
           kept := fun ho => hkept (hgets.kept ho), added := fun ho => ?_ }
  · refine { nodup := hnodup .nil, names := hnames', captured := ?_, own := ?_, apart := ?_,
             free := ?_ }
    · exact fun name hname v hv => hcaptured name v hv (.inl hname)
    · intro name hname hnone
      obtain ⟨v, hv, hfresh, -⟩ := makeLocals_own hf hrun hname hnone
      exact ⟨v, hv, hfresh⟩
    · intro name other v hnone hv hother
      have hname := (hnames' name).mp (NameMap.mem_names.mpr ⟨v, hv⟩)
      exact makeLocals_apart hf hbindings (by rintro _ _ ⟨⟩) hrun hname hnone hv hother
    · intro name
      have hnone : made.find? name = none ↔ name ∉ unit.locals := by
        rw [← hnames', NameMap.mem_names]
        simp [Option.eq_none_iff_forall_ne_some]
      have hempty : ({} : NameMap Ref).find? name = none := rfl
      rw [find?_freeVars, hempty, Option.or_none]
      simp only [hnone]
  · rw [← hgets.id]
    exact (Heap.get_place hfree o _).trans (if_pos rfl)
  · intro name hname hnone v hv
    obtain ⟨w, hw, -, hunbound⟩ := makeLocals_own hf hrun hname hnone
    obtain rfl : w = v := Option.some.inj (hw.symm.trans hv)
    exact hkept hunbound
  · rcases Heap.get_place_cases hfree o ho with ⟨hr, -⟩ | ho
    · exact .inr (.inl hr)
    · exact (hgets.added ho).imp_right .inr

/-! ## The values of the parameters -/

/-- What is assigned to a variable in the end: the last value for a name of it. -/
def assigned (locals : NameMap Ref) (var : Ref) : List (String × Ref) → Option Ref
  | [] => none
  | (name, value) :: rest =>
    (assigned locals var rest).or (if locals.find? name = some var then some value else none)

end Vm

/-- A variable after an assignment, if there is one. -/
def Obj.assign (o : Obj) : Option Ref → Obj
  | some value => { o with payload := .var (some value) }
  | none => o

theorem Obj.assign_assign (o : Obj) (a b : Option Ref) :
    (o.assign a).assign b = o.assign (b.or a) := by
  cases a <;> cases b <;> rfl

theorem Heap.get_map_assign_none (h : Heap) (r : Ref) :
    (h.get r).map (·.assign none) = h.get r := by
  cases h.get r <;> rfl

theorem Heap.IsVar.get_setValue {h : Heap} {var : Ref} (hvar : h.IsVar var) (value r : Ref) :
    (h.update var (Payload.setValue value)).get r =
      (h.get r).map (·.assign (if var = r then some value else none)) := by
  rw [Heap.get_update]
  cases ho : h.get r with
  | error e => rfl
  | ok o =>
    by_cases heq : var = r
    · subst heq
      obtain ⟨old, hold⟩ := hvar
      obtain ⟨k, hk⟩ := Heap.payload_eq_ok_iff.mp hold
      rw [ho] at hk
      cases hk
      simp [Except.map, Obj.assign, Payload.setValue]
    · have hcell : var.cell ≠ r.cell := fun hcell =>
        heq (Heap.eq_of_cell_eq hvar.contains (Heap.contains_of_get ho) hcell)
      simp [Except.map, Obj.assign, heq, hcell]

namespace Vm

variable {vm vm' : Vm} {bindings locals : NameMap Ref}

theorem writeVar_run {var : Ref} (hvar : vm.heap.IsVar var) (value : Ref) :
    writeVar var value vm =
      .ok () { vm with heap := vm.heap.update var (Payload.setValue value) } := by
  obtain ⟨old, hold⟩ := hvar
  have hread : payload var vm = .ok (.var old) vm := payload_eq_ok.mpr ⟨hold, rfl⟩
  exact bind_ok hread

/-- Every value goes to the variable of its name. -/
theorem bindParams_run {names : List String} (hf : vm.heap.FreeList)
    (hvars : ∀ name ∈ names, ∀ v, locals.find? name = some v → vm.heap.IsVar v)
    (values : List Ref) :
    ∃ h', bindParams locals names values vm = .ok () { vm with heap := h' } ∧
      h'.id = vm.heap.id ∧ h'.roots = vm.heap.roots ∧
      ∀ r, h'.get r = (vm.heap.get r).map (·.assign (assigned locals r (names.zip values))) := by
  induction names generalizing values vm with
  | nil => exact ⟨vm.heap, rfl, rfl, rfl, fun r => (vm.heap.get_map_assign_none r).symm⟩
  | cons name names ih =>
    cases values with
    | nil => exact ⟨vm.heap, rfl, rfl, rfl, fun r => (vm.heap.get_map_assign_none r).symm⟩
    | cons value values =>
      unfold bindParams
      cases hfind : locals.find? name with
      | none =>
        obtain ⟨h', hrun, hid, hroots, hget⟩ := ih hf
          (fun n hn => hvars n (List.mem_cons_of_mem name hn)) values
        refine ⟨h', hrun, hid, hroots, fun r => ?_⟩
        rw [hget, List.zip_cons_cons, assigned, hfind]
        simp
      | some var =>
        have hvar := hvars name List.mem_cons_self var hfind
        have hf' : ({ vm with heap := vm.heap.update var (Payload.setValue value) } :
            Vm).heap.FreeList := Heap.update_freeList hf var _
        obtain ⟨h', hrun, hid, hroots, hget⟩ := ih hf'
          (fun n hn v hv => (Heap.Evolves.setValue (A := fun _ => True) hf hvar.contains trivial
            value).isVar (hvars n (List.mem_cons_of_mem name hn) v hv)) values
        refine ⟨h', (bind_ok (writeVar_run hvar value)).trans hrun, hid, hroots, fun r => ?_⟩
        have hset : (vm.heap.update var (Payload.setValue value)).get r = _ :=
          hvar.get_setValue value r
        rw [hget, hset, List.zip_cons_cons, assigned, hfind]
        cases vm.heap.get r with
        | error e => rfl
        | ok o => simp [Except.map, Obj.assign_assign]

theorem assigned_eq_none {var : Ref} {l : List (String × Ref)}
    (h : ∀ p ∈ l, locals.find? p.1 ≠ some var) : assigned locals var l = none := by
  induction l with
  | nil => rfl
  | cons p rest ih =>
    obtain ⟨name, value⟩ := p
    rw [assigned, ih fun q hq => h q (List.mem_cons_of_mem _ hq),
      if_neg (h (name, value) List.mem_cons_self)]
    rfl

theorem assigned_eq_some {var : Ref} {l : List (String × Ref)} {i : Nat} {name : String}
    {value : Ref} (hi : l[i]? = some (name, value)) (hname : locals.find? name = some var)
    (hlast : ∀ j p, i < j → l[j]? = some p → locals.find? p.1 ≠ some var) :
    assigned locals var l = some value := by
  induction l generalizing i with
  | nil => cases hi
  | cons p rest ih =>
    cases i with
    | zero =>
      cases hi
      rw [assigned, assigned_eq_none fun q hq => ?_, if_pos hname]
      · rfl
      · obtain ⟨j, hj⟩ := List.mem_iff_getElem?.mp hq
        exact hlast (j + 1) q (Nat.succ_pos j) hj
    | succ i =>
      rw [assigned, ih hi fun j q hj hq => hlast (j + 1) q (Nat.succ_lt_succ hj) hq]
      rfl

end Vm

/-! ## Entering a method -/

/-- No two names have the same variable. -/
def NameMap.Apart (m : NameMap Ref) : Prop :=
  ∀ a b v, m.find? a = some v → m.find? b = some v → a = b

theorem NameMap.Apart.of_values {m : NameMap Ref} (h : m.values.Nodup) : m.Apart :=
  fun _ _ _ ha hb => congrArg Prod.fst
    (List.inj_on_of_nodup_map h (mem_entries_of_find? ha) (mem_entries_of_find? hb) rfl)

theorem Frame.Declares.locals_apart {fr : Frame} {unit : CodeUnit} {bindings : NameMap Ref}
    {h : Heap} (hd : fr.Declares unit bindings h) (hb : bindings.Apart) : fr.locals.Apart := by
  intro a b v ha hb'
  have captured : ∀ {n w}, fr.locals.find? n = some v → bindings.find? n = some w →
      bindings.find? n = some v := by
    intro n w hn hw
    have hmem := (hd.names n).mp (NameMap.mem_names.mpr ⟨v, hn⟩)
    rw [hd.captured n hmem w hw] at hn
    exact hw.trans hn
  cases hba : bindings.find? a with
  | none => exact hd.apart a b v hba ha hb'
  | some w =>
    cases hbb : bindings.find? b with
    | none => exact (hd.apart b a v hbb hb' ha).symm
    | some x => exact hb a b v (captured ha hba) (captured hb' hbb)

namespace Vm

/-- The method `method`, which has captured `bindings`, was entered. `g` is what runs now, `fr` its
frame, and `v` and `v'` are the states before and after. -/
structure Entered (v : Vm) (method : Ref) (bindings : NameMap Ref) (g : ActiveFrame) (fr : Frame)
    (v' : Vm) : Prop where
  /-- Only the heap and the frames are others, and the trace. -/
  state : v' = { v with heap := v'.heap, frames := v.frames.push g, log := v'.log }
  running : g.method = method ∧ g.ip = 0 ∧ g.base = v.stack.size
  fresh : v.heap.contains g.frame = false
  object : v'.heap.payload g.frame = .ok (.frame fr)
  method : fr.method = method
  declares : fr.Declares g.unit bindings v.heap
  /-- Nothing but the frame knows a variable that it has of its own. -/
  alone : ∀ name ∈ g.unit.locals, bindings.find? name = none → ∀ x, fr.locals.find? name = some x →
    x ∉ v'.roots ∧ x ∉ v'.heap.roots ∧
      ∀ r o, v'.heap.get r = .ok o → x ∈ o.cls :: o.payload.refs → r = g.frame
  unbound : ∀ name ∈ g.unit.locals, name ∉ g.unit.params → bindings.find? name = none → ∀ x,
    fr.locals.find? name = some x → v'.heap.payload x = .ok (.var none)
  /-- Of the objects that were there, only captured variables of parameters are others. -/
  kept : ∀ r o, v.heap.get r = .ok o → (∀ name ∈ g.unit.params, bindings.find? name ≠ some r) →
    v'.heap.get r = .ok o

variable {vm vm' : Vm} {bindings locals : NameMap Ref}

theorem mem_of_assigned {var value : Ref} {l : List (String × Ref)}
    (h : assigned locals var l = some value) :
    ∃ name, (name, value) ∈ l ∧ locals.find? name = some var := by
  induction l with
  | nil => cases h
  | cons p rest ih =>
    obtain ⟨name, w⟩ := p
    rw [assigned, Option.or_eq_some_iff] at h
    rcases h with h | ⟨-, h⟩
    · obtain ⟨n, hmem, hn⟩ := ih h
      exact ⟨n, List.mem_cons_of_mem _ hmem, hn⟩
    · obtain ⟨hname, hw⟩ := Option.ite_none_right_eq_some.mp h
      cases hw
      exact ⟨name, List.mem_cons_self, hname⟩

theorem callee_run {method code : Ref} {m : Method} (hm : vm.heap.payload method = .ok (.method m))
    (hcode : m.body.code? = some code) :
    callee method vm = .ok ⟨code, m.body.module?, m.receiver, m.body.bindings⟩ vm := by
  have hread : payload method vm = .ok (.method m) vm := payload_eq_ok.mpr ⟨hm, rfl⟩
  unfold callee
  rw [bind_ok hread]
  cases hbody : m.body with
  | native f =>
    rw [hbody] at hcode
    cases hcode
  | bytecode c module =>
    rw [hbody] at hcode
    cases hcode
    simp only [hbody]
    rfl
  | closure c module bindings =>
    rw [hbody] at hcode
    cases hcode
    simp only [hbody]
    rfl

/-- The parameters of a frame get their values, and nothing else happens to the heap. -/
def Assigns (fr : Frame) (unit : CodeUnit) (values : List Ref) (h₁ h₂ : Heap) : Prop :=
  ∀ r, h₂.get r = (h₁.get r).map (·.assign (assigned fr.locals r (unit.params.zip values)))

/-- A frame is made, and then its parameters get their values. -/
theorem furnish_run (hf : vm.heap.FreeList) (method : Ref) (c : Callee) (unit : CodeUnit)
    (values : List Ref) (hvars : ∀ name v, c.bindings.find? name = some v → vm.heap.IsVar v) :
    ∃ frame fr h₁ h₂ log, furnish method c unit values vm =
        .ok ⟨frame, method, c.code, c.module, unit, 0, 0⟩ { vm with heap := h₂, log := log } ∧
      vm.heap.NewFrame method unit c.bindings frame fr h₁ ∧ h₂.roots = vm.heap.roots ∧
      Assigns fr unit values h₁ h₂ := by
  obtain ⟨frame, fr, h₁, halloc, hnew⟩ :=
    allocFrame_run hf (fun name v hv => (hvars name v hv).contains) method unit
  have hlocals : ∀ name ∈ unit.params, ∀ v, fr.locals.find? name = some v → h₁.IsVar v := by
    intro name hname v hv
    have hmem := List.mem_of_mem_take hname
    cases hbound : c.bindings.find? name with
    | none =>
      exact ⟨none, Heap.payload_eq_ok_iff.mpr ⟨_, hnew.unbound name hmem hbound v hv⟩⟩
    | some w =>
      rw [hnew.declares.captured name hmem w hbound] at hv
      cases hv
      obtain ⟨old, hold⟩ := hvars name v hbound
      obtain ⟨k, hk⟩ := Heap.payload_eq_ok_iff.mp hold
      exact ⟨old, Heap.payload_eq_ok_iff.mpr ⟨k, hnew.kept hk⟩⟩
  have hf₁ : ({ vm with heap := h₁ } : Vm).heap.FreeList := hnew.freeList
  obtain ⟨h₂, hbind, -, hroots, hget⟩ := bindParams_run hf₁ hlocals values
  obtain ⟨log, htrace⟩ := trace_log Channels.vm "vm"
    (fun vm => s!"enter {unit.name} (depth {vm.frames.size + 1})") { vm with heap := h₂ }
  refine ⟨frame, fr, h₁, h₂, log, ?_, hnew, hroots.trans hnew.roots, hget⟩
  unfold furnish
  exact (bind_ok halloc).trans ((bind_ok hbind).trans (bind_ok htrace))

theorem mem_roots_push {g : ActiveFrame} {h : Heap} {log : List String} {r : Ref}
    (hr : r ∈ { vm with heap := h, frames := vm.frames.push g, log := log : Vm }.roots) :
    r ∈ vm.roots ∨ r ∈ g.frame :: g.method :: g.code :: g.module.toList := by
  simp only [roots, Array.toList_push, List.flatMap_append, List.flatMap_cons, List.flatMap_nil,
    List.mem_append] at hr ⊢
  tauto

section Entered

variable {method : Ref} {c : Callee} {unit : CodeUnit} {values : List Ref} {frame : Ref}
  {fr : Frame} {h₁ h₂ : Heap}

/-- What stands in the heap after a method was entered. An object is as it was when the frame had
been made, or a variable that was assigned one of the values. -/
theorem after_binding
    (hget : Assigns fr unit values h₁ h₂)
    {r : Ref} {o : Obj} (ho : h₂.get r = .ok o) :
    h₁.get r = .ok o ∨ ∃ o₁ value, value ∈ values ∧ h₁.get r = .ok o₁ ∧
      o = { o₁ with payload := .var (some value) } := by
  rw [hget r] at ho
  cases h : h₁.get r with
  | error e =>
    rw [h] at ho
    cases ho
  | ok o₁ =>
    rw [h] at ho
    cases ho
    cases hassigned : assigned fr.locals r (unit.params.zip values) with
    | none => exact .inl rfl
    | some value =>
      obtain ⟨name, hmem, -⟩ := mem_of_assigned hassigned
      exact .inr ⟨o₁, value, (List.of_mem_zip hmem).2, rfl, rfl⟩

/-- Only the frame holds a reference that is new. -/
theorem refs_after_binding (hv : vm.Live)
    (hnew : vm.heap.NewFrame method unit c.bindings frame fr h₁)
    (hvalues : ∀ v ∈ values, vm.heap.contains v = true)
    (hget : Assigns fr unit values h₁ h₂)
    {r x : Ref} {o : Obj} (ho : h₂.get r = .ok o) (hx : x ∈ o.cls :: o.payload.refs)
    (hr : r ≠ frame) : vm.heap.contains x = true := by
  -- nothing but the frame has a new reference when the frame has been made
  have hmade : ∀ {o₁}, h₁.get r = .ok o₁ → ∀ y ∈ o₁.cls :: o₁.payload.refs,
      vm.heap.contains y = true := by
    intro o₁ ho₁ y hy
    rcases hnew.added ho₁ with hold | rfl | ⟨-, rfl⟩
    · obtain ⟨hcls, hrefs⟩ := hv.heap.closed r o₁ hold
      rcases List.mem_cons.mp hy with rfl | hy
      · exact hcls
      · exact hrefs y hy
    · exact absurd rfl hr
    · obtain ⟨k, hk, -⟩ := hv.heap.builtin .var
      obtain rfl : y = Builtin.var.ref vm.heap.id := by
        simpa [Heap.unbound, Payload.refs, Payload.markFn?, MarkFn.targets] using hy
      exact Heap.cls_contains hk
  rcases after_binding hget ho with ho | ⟨o₁, value, hvalue, ho₁, rfl⟩
  · exact hmade ho x hx
  · rcases List.mem_cons.mp hx with rfl | hx
    · exact hmade ho₁ _ List.mem_cons_self
    · obtain rfl : x = value := by
        simpa [Payload.refs, Payload.markFn?, MarkFn.targets] using hx
      exact hvalues x hvalue

theorem entered_of_newFrame (hv : vm.Live)
    (hnew : vm.heap.NewFrame method unit c.bindings frame fr h₁)
    (hheld : ∀ r ∈ method :: c.code :: c.module.toList, vm.heap.contains r = true)
    (hvalues : ∀ v ∈ values, vm.heap.contains v = true) (hroots : h₂.roots = vm.heap.roots)
    (hget : Assigns fr unit values h₁ h₂)
    (hvars : ∀ name v, c.bindings.find? name = some v → vm.heap.IsVar v)
    (log : List String) :
    Entered vm method c.bindings ⟨frame, method, c.code, c.module, unit, 0, vm.stack.size⟩ fr
      { vm with
        heap := h₂
        frames := vm.frames.push ⟨frame, method, c.code, c.module, unit, 0, vm.stack.size⟩
        log := log } := by
  have hunassigned : ∀ {r o}, h₁.get r = .ok o → (∀ name ∈ unit.params,
      fr.locals.find? name ≠ some r) → h₂.get r = .ok o := by
    intro r o ho hr
    rw [hget r, assigned_eq_none fun p hp => hr p.1 (List.of_mem_zip hp).1, ho]
    rfl
  have hframe : ∀ name v, fr.locals.find? name = some v → v ≠ frame := by
    rintro name v hfound rfl
    have hname := (hnew.declares.names name).mp (NameMap.mem_names.mpr ⟨v, hfound⟩)
    cases hbound : c.bindings.find? name with
    | none =>
      have hobject := hnew.unbound name hname hbound v hfound
      rw [hnew.object] at hobject
      cases hobject
    | some w =>
      rw [hnew.declares.captured name hname w hbound] at hfound
      cases hfound
      have hfresh := hnew.fresh
      rw [(hvars name v hbound).contains] at hfresh
      cases hfresh
  refine ⟨rfl, ⟨rfl, rfl, rfl⟩, hnew.fresh, ?_, hnew.method, hnew.declares, ?_, ?_, ?_⟩
  · exact Heap.payload_eq_ok_iff.mpr
      ⟨_, hunassigned hnew.object fun name _ hfound => hframe name frame hfound rfl⟩
  · intro name hname hnone x hx
    obtain ⟨y, hy, hfresh⟩ := hnew.declares.own name hname hnone
    obtain rfl : y = x := Option.some.inj (hy.symm.trans hx)
    have hnot : ∀ {r}, vm.heap.contains r = true → y ≠ r := by
      rintro r hr rfl
      rw [hr] at hfresh
      cases hfresh
    refine ⟨fun hroot => ?_, fun hroot => ?_, fun r o ho hmem => ?_⟩
    · rcases mem_roots_push hroot with hroot | hroot
      · exact hnot (hv.roots y hroot) rfl
      · rcases List.mem_cons.mp hroot with heq | hroot
        · exact hframe name y hx heq
        · exact hnot (hheld y hroot) rfl
    · exact hnot (hv.heap.root_live y (hroots ▸ hroot)) rfl
    · by_contra hr
      exact hnot (refs_after_binding hv hnew hvalues hget ho hmem hr) rfl
  · intro name hname hparam hnone x hx
    refine Heap.payload_eq_ok_iff.mpr
      ⟨_, hunassigned (hnew.unbound name hname hnone x hx) fun other hother hfound => ?_⟩
    exact hparam (hnew.declares.apart name other x hnone hx hfound ▸ hother)
  · intro r o ho hr
    refine hunassigned (hnew.kept ho) fun name hname hfound => ?_
    have hmem := List.mem_of_mem_take hname
    cases hbound : c.bindings.find? name with
    | none =>
      obtain ⟨y, hy, hfresh⟩ := hnew.declares.own name hmem hbound
      obtain rfl : y = r := Option.some.inj (hy.symm.trans hfound)
      rw [Heap.contains_of_get ho] at hfresh
      cases hfresh
    | some w =>
      rw [hnew.declares.captured name hmem w hbound] at hfound
      exact hr name hname (hbound.trans hfound)

/-- The variable of a parameter holds its value, unless the name comes again. -/
theorem param_value (hnew : vm.heap.NewFrame method unit c.bindings frame fr h₁)
    (hget : Assigns fr unit values h₁ h₂)
    (hvars : ∀ name v, c.bindings.find? name = some v → vm.heap.IsVar v)
    (hapart : c.bindings.Apart) {i : Nat} {name : String} {value : Ref}
    (hname : unit.params[i]? = some name) (hvalue : values[i]? = some value)
    (hlast : ∀ j, i < j → unit.params[j]? ≠ some name) :
    ∃ x, fr.locals.find? name = some x ∧ h₂.payload x = .ok (.var (some value)) := by
  have hmem : name ∈ unit.locals := List.mem_of_mem_take (List.mem_of_getElem? hname)
  obtain ⟨x, hx⟩ := NameMap.mem_names.mp ((hnew.declares.names name).mpr hmem)
  refine ⟨x, hx, ?_⟩
  have hassigned : assigned fr.locals x (unit.params.zip values) = some value := by
    refine assigned_eq_some (List.getElem?_zip_eq_some.mpr ⟨hname, hvalue⟩) hx ?_
    rintro j ⟨other, w⟩ hj hother hfound
    obtain rfl := hnew.declares.locals_apart hapart name other x hx hfound
    exact hlast j hj (List.getElem?_zip_eq_some.mp hother).1
  obtain ⟨o, ho⟩ : ∃ o, h₁.get x = .ok o := by
    cases hbound : c.bindings.find? name with
    | none => exact ⟨_, hnew.unbound name hmem hbound x hx⟩
    | some w =>
      rw [hnew.declares.captured name hmem w hbound] at hx
      cases hx
      obtain ⟨o, ho⟩ := Heap.contains_iff.mp (hvars name x hbound).contains
      exact ⟨o, hnew.kept ho⟩
  refine Heap.payload_eq_ok_iff.mpr ⟨o.cls, ?_⟩
  rw [hget x, ho, hassigned]
  rfl

end Entered

/-- A method over a unit, which may have captured variables, each under one name. -/
structure Executable (v : Vm) (method : Ref) (m : Method) (unit : CodeUnit) : Prop where
  method : v.heap.payload method = .ok (.method m)
  code : ∃ code c, m.body.code? = some code ∧ v.heap.payload code = .ok (.code c) ∧ c.unit = unit
  vars : ∀ name x, m.body.bindings.find? name = some x → v.heap.IsVar x
  apart : m.body.bindings.Apart

/-- Below the limit of the depth, a method is entered exactly if it gets as many arguments as it
wants; otherwise that is the error, and nothing has changed. Then a parameter has its own value,
unless its name comes again. -/
theorem enter_run {method : Ref} {m : Method} {unit : CodeUnit} {args : List Ref} (hv : vm.Live)
    (hm : vm.Executable method m unit) (hargs : ∀ a ∈ args, vm.heap.contains a = true)
    (hdepth : vm.callDepth < vm.config.maxFrames) :
    ((m.receiver.toList ++ args).length ≠ unit.arity.toNat ∧ enter method args vm =
      .error (.raised (.arity unit.name unit.arity.toNat (m.receiver.toList ++ args).length)) vm) ∨
    (m.receiver.toList ++ args).length = unit.arity.toNat ∧
      ∃ g fr vm', enter method args vm = .ok () vm' ∧ g.unit = unit ∧
        Entered vm method m.body.bindings g fr vm' ∧
        ∀ (i : Nat) name value, unit.params[i]? = some name →
          (m.receiver.toList ++ args)[i]? = some value →
          (∀ j, i < j → unit.params[j]? ≠ some name) →
          ∃ x, fr.locals.find? name = some x ∧ vm'.heap.payload x = .ok (.var (some value)) := by
  obtain ⟨hmethod, ⟨code, u, hcode, hu, rfl⟩, hvars, hapart⟩ := hm
  have hcallee := callee_run hmethod hcode
  have hunit : codeUnit code vm = .ok u.unit vm := codeUnit_eq_ok.mpr ⟨⟨u, hu, rfl⟩, rfl⟩
  have hactivate := activate_run method args vm
  rw [if_neg (Nat.not_le.mpr hdepth), bind_ok hcallee, bind_ok hunit] at hactivate
  have hheld : ∀ r ∈ (Payload.method m).refs, vm.heap.contains r = true := by
    obtain ⟨k, hk⟩ := Heap.payload_eq_ok_iff.mp hmethod
    exact (hv.heap.closed method _ hk).2
  by_cases hlength : (m.receiver.toList ++ args).length = u.unit.arity.toNat
  · rw [if_neg (not_not.mpr hlength)] at hactivate
    obtain ⟨frame, fr, h₁, h₂, log, hrun, hnew, hroots, hget⟩ :=
      furnish_run hv.heap.freeList method ⟨code, m.body.module?, m.receiver, m.body.bindings⟩
        u.unit (m.receiver.toList ++ args) hvars
    rw [hrun] at hactivate
    refine .inr ⟨hlength, _, fr, _, bind_ok hactivate, rfl, entered_of_newFrame hv hnew ?_ ?_ hroots
      hget hvars log, ?_⟩
    · intro r hr
      rcases List.mem_cons.mp hr with rfl | hr
      · exact Heap.contains_of_payload hmethod
      · rcases List.mem_cons.mp hr with rfl | hr
        · exact Heap.contains_of_payload hu
        · exact hheld r (Method.mem_refs (.inr (.inr (Option.mem_toList.mp hr))))
    · intro r hr
      rcases List.mem_append.mp hr with hr | hr
      · exact hheld r (Method.mem_refs (.inl (Option.mem_toList.mp hr)))
      · exact hargs r hr
    · intro i name value hname hvalue hlast
      exact param_value hnew hget hvars hapart hname hvalue hlast
  · rw [if_pos hlength] at hactivate
    exact .inl ⟨hlength, bind_error hactivate⟩

/-- Below the limit of the depth, a method whose locals have different names is entered exactly if
the receiver, if there is one, and the arguments are as many as it wants. Then each parameter has
its own one of them, whether its variable is new or captured. -/
theorem enter_binds {method : Ref} {m : Method} {unit : CodeUnit} {args : List Ref} (hv : vm.Live)
    (hm : vm.Executable method m unit) (hlocals : unit.locals.Nodup)
    (hargs : ∀ a ∈ args, vm.heap.contains a = true) (hdepth : vm.callDepth < vm.config.maxFrames) :
    ((∃ vm', enter method args vm = .ok () vm') ↔
      (if m.receiver.isSome then 1 else 0) + args.length = unit.arity.toNat) ∧
    ∀ vm', enter method args vm = .ok () vm' →
      ∃ g fr, g.unit = unit ∧ Entered vm method m.body.bindings g fr vm' ∧
        fr.locals.names.Perm unit.locals ∧ fr.locals.Apart ∧
        ∀ (i : Nat) name value, unit.params[i]? = some name →
          (m.receiver.toList ++ args)[i]? = some value →
          ∃ x, fr.locals.find? name = some x ∧ vm'.heap.payload x = .ok (.var (some value)) := by
  have hlength : (m.receiver.toList ++ args).length =
      (if m.receiver.isSome then 1 else 0) + args.length := by
    cases m.receiver <;> simp [Nat.add_comm]
  rw [← hlength]
  rcases enter_run hv hm hargs hdepth with
    ⟨hwrong, herror⟩ | ⟨hright, g, fr, vm', hrun, hunit, h, hparam⟩
  · rw [herror]
    exact ⟨⟨nofun, fun h => absurd h hwrong⟩, nofun⟩
  · rw [hrun]
    refine ⟨⟨fun _ => hright, fun _ => ⟨vm', rfl⟩⟩, ?_⟩
    rintro _ ⟨⟩
    obtain rfl := hunit
    refine ⟨g, fr, rfl, h, ?_, h.declares.locals_apart hm.apart, fun i name value hname hvalue =>
      hparam i name value hname hvalue fun j hj hagain => ?_⟩
    · exact (List.perm_ext_iff_of_nodup h.declares.nodup hlocals).mpr h.declares.names
    · have hparams : g.unit.params.Nodup := hlocals.sublist (List.take_sublist ..)
      exact absurd ((List.getElem?_inj (List.getElem?_eq_some_iff.mp hname).1 hparams).mp
        (hname.trans hagain.symm)) (Nat.ne_of_lt hj)

/-- A closure that has captured its parameter `x`, and `z`, which is not a local. -/
def shadowing : Packed :=
  .method "f" (.closure { name := "f", locals := ["x", "y"], freevars := ["x", "z"], arity := 1 }
    none [("x", none), ("z", none)]) none

/-- Whether a method is a closure over variables, and its unit has these locals and so many
parameters. -/
def closesOver (h : Heap) (method code : Ref) (vars : NameMap Ref) (locals : List String)
    (arity : UInt8) : Bool :=
  okAnd (h.payload method) (fun
    | .method ⟨_, .closure c _ bindings, none⟩ => c == code && bindings == vars
    | _ => false) &&
  okAnd (h.payload code) (fun
    | .code c => c.unit.locals == locals && c.unit.arity == arity
    | _ => false) &&
  vars.entries.all fun v => okAnd (h.payload v.2) fun
    | .var _ => true
    | _ => false

theorem closesOver_executable {method code : Ref} {vars : NameMap Ref} {names : List String}
    {arity : UInt8} (h : closesOver vm.heap method code vars names arity = true)
    (hapart : vars.Apart) :
    ∃ m unit, vm.Executable method m unit ∧ m.receiver = none ∧ m.body.bindings = vars ∧
      unit.locals = names ∧ unit.arity = arity := by
  simp only [closesOver, Bool.and_eq_true, okAnd_eq_true, List.all_eq_true] at h
  obtain ⟨⟨⟨p, hp, hmethod⟩, q, hq, hcode⟩, hvars⟩ := h
  split at hmethod
  case h_1 name c module bindings =>
    split at hcode
    case h_1 u =>
      simp only [Bool.and_eq_true, beq_iff_eq] at hmethod hcode
      obtain ⟨rfl, rfl⟩ := hmethod
      refine ⟨_, u.unit, ⟨hp, ⟨c, u, rfl, hq, rfl⟩, fun n x hx => ?_, hapart⟩, rfl, rfl, hcode⟩
      obtain ⟨r, hr, hvar⟩ := hvars (n, x) (NameMap.mem_entries_of_find? hx)
      split at hvar
      case h_1 value => exact ⟨value, hr⟩
      case h_2 => cases hvar
    case h_2 => cases hcode
  case h_2 => cases hmethod

/-- It is entered with one argument, which the captured variable holds then. -/
theorem enter_binds_shadowing :
    ∃ vm vm', (Session.boot {} {} 0 ⟨0, 0⟩).Reaches (.idle vm) ∧
      enter ⟨0, 46, 0⟩ [nilRef 0] vm = .ok () vm' ∧
      vm'.heap.payload ⟨0, 44, 0⟩ = .ok (.var (some (nilRef 0))) := by
  have hrun : ((Session.follow? [.operate (.unpack shadowing) []]
      (Session.boot {} {} 0 ⟨0, 0⟩)).bind Session.idle?).any (fun vm =>
        vm.heap.contains (nilRef 0) && decide (vm.callDepth < vm.config.maxFrames) &&
        closesOver vm.heap ⟨0, 46, 0⟩ ⟨0, 43, 0⟩ ⟨[("x", ⟨0, 44, 0⟩), ("z", ⟨0, 45, 0⟩)]⟩
          ["x", "y"] 1) = true := by
    decide +kernel
  obtain ⟨vm, hidle, hrun⟩ := (Option.any_eq_true _ _).mp hrun
  simp only [Bool.and_eq_true, decide_eq_true_eq] at hrun
  obtain ⟨⟨hnil, hdepth⟩, hclosure⟩ := hrun
  have hby : (Session.boot {} {} 0 ⟨0, 0⟩).ReachesBy (fun _ _ => False) (fun _ _ _ => True)
      (.idle vm) := Session.follow?_idle (fun _ _ _ _ => trivial) hidle
  have hreach := hby.reaches
  have hlive : vm.Live := (Session.orderly {} {} 0 ⟨0, 0⟩ hreach).live
  obtain ⟨m, unit, hm, hreceiver, hbindings, hlocals, harity⟩ :=
    closesOver_executable hclosure (.of_values (by decide))
  have hargs : ∀ a ∈ [nilRef 0], vm.heap.contains a = true := by simpa using hnil
  obtain ⟨hiff, hbinds⟩ := enter_binds hlive hm (by rw [hlocals]; decide) hargs hdepth
  obtain ⟨vm', hrun⟩ := hiff.mpr (by rw [hreceiver, harity]; rfl)
  obtain ⟨g, fr, rfl, hentered, -, -, hparam⟩ := hbinds vm' hrun
  have hparams : g.unit.params[0]? = some "x" := by simp [CodeUnit.params, hlocals, harity]
  obtain ⟨x, hx, hvalue⟩ := hparam 0 "x" (nilRef 0) hparams (by rw [hreceiver]; rfl)
  have hcaptured := hentered.declares.captured "x" (by rw [hlocals]; decide) ⟨0, 44, 0⟩
    (by rw [hbindings]; rfl)
  rw [hcaptured] at hx
  cases hx
  exact ⟨vm, vm', hreach, hrun, hvalue⟩

end Vm
end ObjectMachine
