import ObjectMachine.Proofs.Machine.CallEnds
import ObjectMachine.Proofs.Scopes.OneName

/-!
# ObjectMachine.Proofs.Scopes.Meanings

What a name means in a frame, and what a store makes of the meanings of names.

A name means the value of its variable, be it one of the frame, a captured one or one of the module,
or else a global, or else a class. A store gives one name a meaning. Since no variable has two
names, all other names go on meaning what they meant.

* `Vm.Means` — what a name means.
* `Vm.loadName_of_means` — a load answers what the name means.
* `Vm.storeName_stores` — a store gives the name its value and leaves the other names alone.
* `Session.names_apart` — in every run.
-/

namespace ObjectMachine

open ObjectMachine.Action

/-- What a name means in a frame, if anything. -/
inductive Vm.Means (v : Vm) (f : ActiveFrame) (name : String) : Option Ref → Prop where
  | var {x : Ref} {value : Option Ref} : v.heap.Resolves f name x →
      v.heap.payload x = .ok (.var value) → Means v f name value
  | outer {found : Option Ref} : (∀ x, ¬ v.heap.Resolves f name x) →
      (v.globals.find? name).or (v.classes.find? name) = found → Means v f name found

/-- A name has been given a value, and no other name has another meaning than before. -/
structure Vm.Gives (v : Vm) (f : ActiveFrame) (name : String) (value : Ref) (v' : Vm) : Prop where
  self : v'.Means f name (some value)
  others : ∀ other found, other ≠ name → v.Means f other found → v'.Means f other found

/-- With a frame and a module, a name is looked up in the one and then in the other. -/
theorem Heap.resolves_iff {h : Heap} {f : ActiveFrame} {fr : Frame} {r x : Ref} {m : Module}
    {name : String} (hframe : h.payload f.frame = .ok (.frame fr)) (hr : f.module = some r)
    (hm : h.payload r = .ok (.module m)) :
    h.Resolves f name x ↔ (fr.var? name).or (m.locals.find? name) = some x := by
  constructor
  · intro hx
    cases hx with
    | frame hfr hvar =>
      rw [hframe] at hfr
      cases hfr
      rw [hvar]
      rfl
    | module hp hnone hr' hd hvar =>
      rw [hframe] at hp
      cases hp
      obtain rfl := Option.some.inj (hr.symm.trans hr')
      rw [hm] at hd
      cases hd
      rw [hnone fr rfl]
      exact hvar
  · intro hx
    cases hvar : fr.var? name with
    | some y =>
      rw [hvar] at hx
      exact .frame hframe (hvar.trans hx)
    | none =>
      rw [hvar] at hx
      refine .module hframe ?_ hr hm hx
      rintro _ ⟨⟩
      exact hvar

namespace Vm

variable {v v' : Vm} {f : ActiveFrame} {fr : Frame} {name : String} {found : Option Ref}
  {value : Ref}

/-! ## Loads -/

theorem Named.means (h : v.Named) (f : ActiveFrame) (name : String) :
    ∃ found, v.Means f name found := by
  by_cases hres : ∃ x, v.heap.Resolves f name x
  · obtain ⟨x, hx⟩ := hres
    obtain ⟨value, hvalue⟩ := h.vars name x hx.binds
    exact ⟨value, .var hx hvalue⟩
  · exact ⟨_, .outer (fun x hx => hres ⟨x, hx⟩) rfl⟩

theorem scopedVar?_eq_none (hback : v.frames.back? = some f)
    (hframe : v.heap.payload f.frame = .ok (.frame fr))
    (hmodule : ∀ r, f.module = some r → v.heap.IsModule r)
    (hnone : ∀ x, ¬ v.heap.Resolves f name x) : scopedVar? name v = .ok none v := by
  have hlocal : fr.var? name = none := by
    cases hvar : fr.var? name with
    | none => rfl
    | some x => exact absurd (.frame hframe hvar) (hnone x)
  unfold scopedVar?
  rw [bind_ok (top_run hback),
    bind_ok (frameVar?_eq_ok.mpr ⟨⟨_, hframe, .inl ⟨fr, rfl, hlocal⟩⟩, rfl⟩)]
  unfold moduleVar?
  cases hr : f.module with
  | none => rfl
  | some r =>
    obtain ⟨m, hm⟩ := hmodule r hr
    dsimp only
    rw [bind_ok (payload_eq_ok.mpr ⟨hm, rfl⟩)]
    cases hvar : m.locals.find? name with
    | none =>
      dsimp only
      rw [hvar]
      rfl
    | some x =>
      refine absurd (.module hframe ?_ hr hm hvar) (hnone x)
      rintro _ ⟨⟩
      exact hlocal

/-- A load answers what the name means. -/
theorem loadName_of_means (hback : v.frames.back? = some f)
    (hframe : v.heap.payload f.frame = .ok (.frame fr))
    (hmodule : ∀ r, f.module = some r → v.heap.IsModule r) (h : v.Means f name found) :
    loadName name v = found.elim (.error (.raised (.unbound name)) v) (.ok · v) := by
  unfold loadName
  cases h with
  | @var x value hres hvalue =>
    rw [bind_ok (scopedVar?_eq_some.mpr ⟨⟨f, hback, hres⟩, rfl⟩)]
    have hread : readVar x v = .ok found v := by
      unfold readVar
      rw [bind_ok (payload_eq_ok.mpr ⟨hvalue, rfl⟩)]
      rfl
    dsimp only
    rw [bind_ok hread]
    cases found <;> rfl
  | outer hnone heq =>
    rw [bind_ok (scopedVar?_eq_none hback hframe hmodule hnone)]
    subst heq
    dsimp only
    rw [bind_ok get_run]
    cases v.globals.find? name with
    | some r => rfl
    | none => cases v.classes.find? name <;> rfl

/-! ## Stores -/

/-- A name means the same where it stands for the same variable, with the same value. -/
theorem Means.of_same (h : v.Means f name found)
    (hres : ∀ x, v'.heap.Resolves f name x ↔ v.heap.Resolves f name x)
    (hvar : ∀ x value, v.heap.Resolves f name x → v.heap.payload x = .ok (.var value) →
      v'.heap.payload x = .ok (.var value))
    (hglobals : v'.globals.find? name = v.globals.find? name) (hclasses : v'.classes = v.classes) :
    v'.Means f name found := by
  cases h with
  | var hx hvalue => exact .var ((hres _).mpr hx) (hvar _ _ hx hvalue)
  | outer hnone heq =>
    refine .outer (fun x hx => hnone x ((hres x).mp hx)) ?_
    rw [hglobals, hclasses]
    exact heq

/-- The name has a variable: only this one changes, and it has no other name. -/
theorem gives_setValue (h : v.Named) (hframe : v.heap.payload f.frame = .ok (.frame fr))
    (hmodule : ∀ r, f.module = some r → v.heap.IsModule r) {x : Ref} {old : Option Ref}
    (hx : v.heap.Resolves f name x) (hold : v.heap.payload x = .ok (.var old)) :
    v.Gives f name value { v with heap := v.heap.update x (Payload.setValue value) } := by
  have hkept : ∀ r p, r ≠ x → v.heap.payload r = .ok p →
      (v.heap.update x (Payload.setValue value)).payload r = .ok p := fun r p hne hp => by
    obtain ⟨k, hk⟩ := Heap.payload_eq_ok_iff.mp hp
    exact Heap.payload_eq_ok_iff.mpr ⟨k, Heap.get_update_ne hold hne hk⟩
  have hscope : ∀ r ∈ f.frame :: f.module.toList, r ≠ x ∧ ∃ p, v.heap.payload r = .ok p := by
    intro r hr
    rcases List.mem_cons.mp hr with rfl | hr
    · refine ⟨?_, _, hframe⟩
      rintro rfl
      rw [hframe] at hold
      cases hold
    · obtain ⟨m, hm⟩ := hmodule r (by simpa using hr)
      refine ⟨?_, _, hm⟩
      rintro rfl
      rw [hm] at hold
      cases hold
  have hres : ∀ other y, (v.heap.update x (Payload.setValue value)).Resolves f other y ↔
      v.heap.Resolves f other y := fun other y => by
    refine ⟨fun hy => hy.of_payload fun r p hr hp => ?_,
      fun hy => hy.of_payload fun r p hr hp => ?_⟩
    · obtain ⟨hne, q, hq⟩ := hscope r hr
      rw [hkept r q hne hq] at hp
      exact hq.trans hp
    · exact hkept r p (hscope r hr).1 hp
  refine ⟨.var ((hres name x).mpr hx) (Heap.payload_update_self hold),
    fun other found hother hmeans => ?_⟩
  refine hmeans.of_same (hres other) (fun y w hy hw => hkept y _ ?_ hw) rfl rfl
  rintro rfl
  exact hother (h.one other name y hy.binds hx.binds)

/-- The name has no variable, and there is no module: it becomes a global. -/
theorem gives_setGlobal (hnone : ∀ x, ¬ v.heap.Resolves f name x) :
    v.Gives f name value { v with globals := v.globals.insert name value } := by
  refine ⟨.outer hnone ?_, fun other found hother hmeans => ?_⟩
  · rw [NameMap.find?_insert_self]
    rfl
  · exact hmeans.of_same (fun _ => .rfl) (fun _ _ _ hw => hw) (NameMap.find?_insert_ne hother) rfl

/-- The name has no variable: a new one becomes a name of the module. -/
theorem gives_addLocal (hf : v.heap.FreeList)
    (hframe : v.heap.payload f.frame = .ok (.frame fr)) {r : Ref} {m : Module}
    (hr : f.module = some r) (hm : v.heap.payload r = .ok (.module m))
    (hnone : ∀ x, ¬ v.heap.Resolves f name x) {k x : Ref} {h₁ : Heap}
    (hplace : v.heap.place ⟨k, .var (some value)⟩ = (x, h₁)) :
    v.Gives f name value { v with heap := h₁.update r (Payload.addLocal name x) } := by
  have hplaced : ∀ {s p}, v.heap.payload s = .ok p → h₁.payload s = .ok p := fun hp => by
    have hold := Heap.payload_place_of_payload hf ⟨k, .var (some value)⟩ hp
    rwa [hplace] at hold
  have hx : h₁.payload x = .ok (.var (some value)) := by
    have hself := Heap.payload_place_self hf ⟨k, .var (some value)⟩
    rwa [hplace] at hself
  -- the module gains the name, and nothing else changes
  have hkept : ∀ s p, h₁.payload s = .ok p → (∀ d, p ≠ .module d) →
      (h₁.update r (Payload.addLocal name x)).payload s = .ok p := fun s p hp hne => by
    obtain ⟨c, hc⟩ := Heap.payload_eq_ok_iff.mp hp
    refine Heap.payload_eq_ok_iff.mpr ⟨c, Heap.get_update_ne (hplaced hm) ?_ hc⟩
    rintro rfl
    rw [hplaced hm] at hp
    cases hp
    exact hne m rfl
  have hframe' := hkept f.frame _ (hplaced hframe) nofun
  have hm' : (h₁.update r (Payload.addLocal name x)).payload r =
      .ok (.module { m with locals := m.locals.insert name x }) :=
    Heap.payload_update_self (hplaced hm)
  have hlocal : fr.var? name = none := by
    cases hvar : fr.var? name with
    | none => rfl
    | some y => exact absurd (.frame hframe hvar) (hnone y)
  refine ⟨.var ((Heap.resolves_iff hframe' hr hm').mpr ?_) (hkept x _ hx nofun),
    fun other found hother hmeans => ?_⟩
  · rw [hlocal, NameMap.find?_insert_self]
    rfl
  · refine hmeans.of_same (fun y => ?_) (fun y w _ hw => hkept y _ (hplaced hw) nofun) rfl rfl
    rw [Heap.resolves_iff hframe hr hm]
    refine (Heap.resolves_iff hframe' hr hm').trans ?_
    rw [NameMap.find?_insert_ne hother]

/-- A store succeeds, gives the name its value and leaves the other names alone. -/
theorem storeName_gives (h : v.Named) (hf : v.heap.FreeList) (hback : v.frames.back? = some f)
    (hframe : v.heap.payload f.frame = .ok (.frame fr)) (name : String) (value : Ref) :
    ∃ v', storeName name value v = .ok () v' ∧ v'.frames = v.frames ∧ v.Gives f name value v' := by
  have hmodule : ∀ r, f.module = some r → v.heap.IsModule r := fun r hr =>
    h.scopes r (.frame (Array.mem_of_back? hback) hr)
  unfold storeName
  by_cases hres : ∃ x, v.heap.Resolves f name x
  · obtain ⟨x, hx⟩ := hres
    obtain ⟨old, hold⟩ := h.vars name x hx.binds
    rw [bind_ok (scopedVar?_eq_some.mpr ⟨⟨f, hback, hx⟩, rfl⟩)]
    have hwrite : writeVar x value v =
        .ok () { v with heap := v.heap.update x (Payload.setValue value) } := by
      unfold writeVar
      rw [bind_ok (payload_eq_ok.mpr ⟨hold, rfl⟩)]
      rfl
    exact ⟨_, hwrite, rfl, gives_setValue h hframe hmodule hx hold⟩
  · have hnone : ∀ x, ¬ v.heap.Resolves f name x := fun x hx => hres ⟨x, hx⟩
    rw [bind_ok (scopedVar?_eq_none hback hframe hmodule hnone)]
    dsimp only
    rw [bind_ok (top_run hback)]
    cases hr : f.module with
    | none => exact ⟨_, rfl, rfl, gives_setGlobal hnone⟩
    | some r =>
      obtain ⟨m, hm⟩ := hmodule r hr
      have hvar : newVar (some value) v = .ok _ _ := new_eq ..
      have hm₁ := Heap.payload_place_of_payload hf ⟨Builtin.var.ref v.heap.id, .var (some value)⟩ hm
      dsimp only
      rw [bind_ok hvar, bind_ok (payload_eq_ok.mpr ⟨hm₁, rfl⟩)]
      exact ⟨_, rfl, rfl, gives_addLocal hf hframe hr hm hnone rfl⟩

/-- Only the frame object and the module matter. -/
theorem Means.of_frame {g : ActiveFrame} (h : v.Means f name found) (hframe : g.frame = f.frame)
    (hmodule : g.module = f.module) : v.Means g name found := by
  cases h with
  | var hres hvalue => exact .var (hres.of_eq hframe hmodule) hvalue
  | outer hnone heq =>
    exact .outer (fun x hx => hnone x (hx.of_eq hframe.symm hmodule.symm)) heq

/-- The collector leaves what names mean in the running frame. -/
theorem Performs.means {u : Vm} (hp : v.Performs f u) (h : v.Means f name found) :
    u.Means f name found := by
  refine h.of_same (fun x => ⟨hp.remains.resolves_back, hp.remains.resolves hp.frame_live⟩)
    (fun x value hx hvalue => hp.remains.payload hvalue ?_) (by rw [hp.globals]) hp.classes
  exact hp.sound.closed.resolves_live (hp.remains.resolves hp.frame_live hx)

end Vm

/-! ## Steps and runs -/

/-- A step at a store with an operand gives the name its value. -/
theorem Machine.Stands.gives {m : Machine} {f : ActiveFrame} {i : Instr} {name : String}
    {value : Ref} {fr : Frame} (hs : m.Stands f .storeName i) (hlive : m.vm.Live)
    (hnamed : m.vm.Named) (hframe : m.vm.heap.payload f.frame = .ok (.frame fr))
    (hname : f.unit.names[i.arg1.toNat]? = some name) (hvalue : m.vm.stack.back? = some value)
    (hbase : f.base < m.vm.stack.size) :
    ∃ m', m.step = .next m' ∧ m'.mode = .running ∧
      m'.vm.frames.back? = some { f with ip := f.ip + 1 } ∧ m.vm.Gives f name value m'.vm := by
  obtain ⟨u, floor, outer, hp, hstep⟩ := hs.step_eq hlive
  have hf := hp.sound.freeList
  have hframe' := hp.remains.payload hframe (hp.frame_live _ List.mem_cons_self)
  obtain ⟨low, hlow⟩ := Array.back?_eq_some_iff.mp hvalue
  have hpop : Vm.pop u = .ok value (u.restack low) := by
    refine Vm.pop_run hp.frame ?_ (hp.stack.trans hlow)
    rw [hlow, Array.size_push] at hbase
    exact Nat.le_of_lt_succ hbase
  have hpopped := Acts.of_ok (R := Eq) hf hpop
  obtain ⟨v', hstore, hframes, hgives⟩ := Vm.storeName_gives
    ((hnamed.moves hp.moves).proceeds hpopped.toProceeds) hpopped.heap.freeList hp.frame hframe'
    name value
  have hread : Vm.nameAt i.arg1 (u.restack low) = .ok name (u.restack low) :=
    Vm.nameAt_eq_ok.mpr ⟨⟨_, hp.frame, hname⟩, rfl⟩
  have hrun : (Vm.execute .storeName i >>= Vm.goOn floor) u = .ok .next v' := by
    rw [Vm.execute_store, bind_ok hpop, bind_ok hread, bind_ok hstore]
    rfl
  refine ⟨_, hstep.trans (continueWith_ok hrun), rfl, ?_, ?_, fun other found hother hmeans => ?_⟩
  · show v'.frames.back? = _
    rw [hframes]
    exact hp.frame
  · exact hgives.self.of_frame rfl rfl
  · refine (hgives.others other found hother ?_).of_frame rfl rfl
    have hbefore : (u.restack low).Means f other found :=
      (hp.means hmeans).of_same (fun _ => .rfl) (fun _ _ _ hw => hw) rfl rfl
    exact hbefore.of_frame rfl rfl

namespace Session

/-- No two names stand for one variable. In every run in which the embedding program gives no
variable a second name by hand, whatever the programs are and wherever the collector runs:

* a variable is bound under one name, in all frames, closures and modules that bind it;
* so wherever a value is stored to a name, the store succeeds, a load of the name then answers the
  value, and a load of any other name answers what it answered before, be that a value or that the
  name is unbound. Each name may stand for a variable of the frame, a captured one or one of the
  module, or for a global or a class. -/
theorem names_apart (registry : Registry) (config : Config) (heap : Nat) (task : TaskId)
    {s : Session} (hs : (boot registry config heap task).ReachesBy Vm.Fits Vm.Accepts s) :
    (∀ name other x, s.vm.heap.Bound name x → s.vm.heap.Bound other x → name = other) ∧
    ∀ m f i name value, s = .active m → m.Stands f .storeName i →
      f.unit.names[i.arg1.toNat]? = some name → m.vm.stack.back? = some value →
      f.base < m.vm.stack.size →
      ∃ m', m.step = .next m' ∧ m'.mode = .running ∧
        m'.vm.frames.back? = some { f with ip := f.ip + 1 } ∧
        Vm.loadName name m'.vm = .ok value m'.vm ∧
        ∀ other, other ≠ name →
          (∃ w, Vm.loadName other m.vm = .ok w m.vm ∧ Vm.loadName other m'.vm = .ok w m'.vm) ∨
          Vm.loadName other m.vm = .error (.raised (.unbound other)) m.vm ∧
            Vm.loadName other m'.vm = .error (.raised (.unbound other)) m'.vm := by
  obtain ⟨horderly, hnamed⟩ := named hs
  refine ⟨hnamed.one, ?_⟩
  rintro m f i name value rfl hstands hname hvalue hbase
  have hlive := Machine.Live.vm horderly.live
  have hmem := Array.mem_of_back? hstands.frame
  obtain ⟨-, -, -, -, -, hframe, -, -⟩ := horderly.framed trivial f hmem
  obtain ⟨m', hstep, hmode, hback, hgives⟩ :=
    hstands.gives hlive hnamed hframe hname hvalue hbase
  -- the frame and its module are there after the step as well
  have hst := Step.of_next hstep
  have hnamed' : m'.vm.Named := hnamed.moves (hst.active_becomes hlive)
  have horderly' := horderly.step hst
  obtain ⟨-, -, -, -, -, hframe', -, -⟩ := horderly'.framed trivial _ (Array.mem_of_back? hback)
  have hload : ∀ {n found}, m.vm.Means f n found → Vm.loadName n m.vm = _ := fun hmeans =>
    Vm.loadName_of_means hstands.frame hframe
      (fun r hr => hnamed.scopes r (.frame hmem hr)) hmeans
  have hload' : ∀ {n found}, m'.vm.Means f n found → Vm.loadName n m'.vm = _ := fun hmeans =>
    Vm.loadName_of_means hback hframe'
      (fun r hr => hnamed'.scopes r (.frame (Array.mem_of_back? hback) hr))
      (hmeans.of_frame rfl rfl)
  refine ⟨m', hstep, hmode, hback, hload' hgives.self, fun other hother => ?_⟩
  obtain ⟨found, hmeans⟩ := hnamed.means f other
  have hafter := hload' (hgives.others other found hother hmeans)
  cases found with
  | some w => exact .inl ⟨w, hload hmeans, hafter⟩
  | none => exact .inr ⟨hload hmeans, hafter⟩

/-- A unit that makes a closure over its local variable, and calls it. The closure assigns the
variable. -/
def assigning : CodeUnit where
  code := #[.args .makeClosure 0 0 0, .args .call 0 0 0, .simple .ret]
  locals := ["n"]
  consts := [.code {
    code := #[.args .pushConst 0 0 0, .args .storeName 0 0 0, .args .pushName 0 0 0, .simple .ret]
    consts := [.int 7]
    names := ["n"]
    freevars := ["n"] }]

/-- The closure is about to assign the variable that it has captured. The name of a class means the
class before and after. -/
theorem names_apart_captured : ∃ m m' value c,
    (boot {} {} 0 ⟨0, 0⟩).ReachesBy Vm.Fits Vm.Accepts (.active m) ∧
      m.standsAt .storeName = true ∧ m.vm.stack.back? = some value ∧ m.step = .next m' ∧
      Vm.loadName "n" m'.vm = .ok value m'.vm ∧
      Vm.loadName "Int" m.vm = .ok c m.vm ∧ Vm.loadName "Int" m'.vm = .ok c m'.vm := by
  have hrun : (callOf? assigning 3).any (fun m =>
      m.standsAt .storeName && m.vm.stack.back?.isSome && m.vm.frames.back?.any fun f =>
        decide (f.base < m.vm.stack.size) &&
          f.unit.code[f.ip]?.any fun i => f.unit.names[i.arg1.toNat]? == some "n") = true := by
    decide +kernel
  obtain ⟨m, hcall, hrun⟩ := (Option.any_eq_true _ _).mp hrun
  simp only [Bool.and_eq_true, Option.any_eq_true, Option.isSome_iff_exists, beq_iff_eq,
    decide_eq_true_eq] at hrun
  obtain ⟨⟨hat, value, hvalue⟩, f, hback, hbase, i, hi, hname⟩ := hrun
  have hreach : (boot {} {} 0 ⟨0, 0⟩).ReachesBy Vm.Fits Vm.Accepts (.active m) :=
    callOf?_reaches hcall trivial
  obtain ⟨g, j, hstands⟩ := Machine.standsAt_iff.mp hat
  obtain rfl := Option.some.inj (hback.symm.trans hstands.frame)
  obtain rfl := Option.some.inj (hi.symm.trans hstands.instr)
  obtain ⟨m', hstep, -, -, hload, hothers⟩ := (names_apart {} {} 0 ⟨0, 0⟩ hreach).2 m f i "n" value
    rfl hstands hname hvalue hbase
  have hint : (callOf? assigning 3).any (fun m =>
      ((Vm.loadName "Int").run' m.vm).isSome) = true := by decide +kernel
  rw [hcall] at hint
  obtain ⟨c, hc, hc'⟩ | ⟨herror, -⟩ := hothers "Int" (by decide)
  · exact ⟨m, m', value, c, hreach, hat, hvalue, hstep, hload, hc, hc'⟩
  · have hnone : (Vm.loadName "Int").run' m.vm = none := by
      delta EStateM.run' EStateM.run
      rw [herror]
    simp [hnone] at hint

end Session

end ObjectMachine
