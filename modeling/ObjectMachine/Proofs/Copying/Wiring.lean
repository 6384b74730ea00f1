import ObjectMachine.Proofs.Copying.Sendable
import ObjectMachine.Proofs.Scopes.OneModule

/-!
# ObjectMachine.Proofs.Copying.Wiring

Methods refer to code, modules and variables, in every run.

Packing relies on that. The methods that a task makes, loads or receives are of this kind, and what
they refer to stays what it is. Only the embedding program could make a method of another kind, or a
frame or a module that binds a name to something else than a variable; it may make anything else.

* `Vm.Connects` — what the embedding program may make by hand.
* `Vm.Connected` — names are bound to variables and looked up in modules, and methods run code.
* `Vm.Connected.lasts` — every step keeps it so.
* `Vm.Connected.wired`, `Session.wired` — the heap of such a task is wired, and so it is in every
  run.
* `Session.pack_recovers` — packing a live value succeeds or is refused.
-/

namespace ObjectMachine

/-- Contents that may be made by hand: if they bind names or look them up, then in variables and
modules that are there, and if they run code, then such code. -/
structure Vm.Connects (v : Vm) (p : Payload) : Prop where
  vars : ∀ name x, p.Binds name x → v.heap.IsVar x
  scope : ∀ m r, p = .method m → m.body.module? = some r → v.heap.IsModule r
  body : ∀ m, p = .method m → m.body.Whole v.heap

/-- Names are bound to variables and looked up in modules, and methods run code. -/
structure Vm.Connected (v : Vm) : Prop extends v.Neat where
  bodies : v.heap.Whole

/-- A method that is there after a collection has kept its code. -/
theorem Heap.Whole.swept {v u : Vm} (hw : v.heap.Whole) (hs : v.Swept u) : u.heap.Whole := by
  refine hw.restrict (fun r p => hs.payload_back) fun r m x hm hx hcode => ?_
  obtain ⟨c, hc⟩ := hcode
  have hlive := (Vm.Live.swept hs).heap.closed.refs_live hm (Method.mem_refs (.inr (.inl hx)))
  exact ⟨c, hs.remains.payload hc hlive⟩

namespace Vm.Connected

variable {v u v' : Vm}

theorem swept (h : v.Connected) (hs : v.Swept u) : u.Connected :=
  ⟨h.toNeat.swept hs, h.bodies.swept hs⟩

theorem proceeds {R : Payload → Payload → Prop} (h : v.Connected) (hp : v.Proceeds R v') :
    v'.Connected :=
  ⟨(hp.names h.toNeat).neat, hp.bodies h.bodies⟩

theorem place (h : v.Connected) (hf : v.heap.FreeList) (k : Ref) {p : Payload}
    (hp : v.Connects p) : Vm.Connected { v with heap := (v.heap.place ⟨k, p⟩).2 } :=
  ⟨h.toNeat.place hf k hp.vars hp.scope, h.bodies.place hf hp.body⟩

theorem addLocal (h : v.Connected) (r : Ref) (name : String) {x : Ref} (hx : v.heap.IsVar x) :
    Vm.Connected { v with heap := v.heap.update r (Payload.addLocal name x) } := by
  refine ⟨h.toNeat.addLocal r name hx, h.bodies.update r (fun _ => rfl) fun p m hm => ?_⟩
  exact (Payload.addLocal_eq (.inr (hm ▸ trivial))).symm.trans hm

/-- Other roots make no difference. -/
theorem roots (h : v.Connected) (roots temps : List Ref) :
    Vm.Connected { v with heap := { v.heap with roots := roots }, temps := temps } :=
  ⟨h.toNeat.roots roots temps, h.bodies.restrict (fun _ _ => id) fun _ _ _ _ _ => id⟩

theorem lasts : Vm.Lasts Vm.Connects Vm.Grants Vm.Connected where
  swept := swept
  proceeds := proceeds
  place k h hf hp := h.place hf k hp
  addLocal h ha := h.addLocal _ _ ha
  roots h := h.roots _ _
  module ha := ha

/-- A new task has native methods only. -/
theorem boot (registry : Registry) (config : Config) (heap : Nat) (task : TaskId) :
    (Vm.boot registry config heap task).Connected := by
  refine ⟨(Named.boot registry config heap task).toNeat,
    (boot_proceeds registry config heap task).bodies fun r m hm => ?_⟩
  obtain ⟨c, heq⟩ | heq | ⟨b, heq⟩ := bare_payload hm <;> cases heq

theorem wired (h : v.Connected) : v.heap.Wired where
  code r m x hm hx := (h.bodies r m hm).code x hx
  module r m x hm hx := h.scopes x (.method hm hx)
  captured r m code module bindings hm hbody b hb := by
    have hnames : bindings.names.Nodup := by
      have hwhole := (h.bodies r m hm).names
      rwa [hbody] at hwhole
    -- no name is captured twice, so that each captured variable is what its name is bound to
    have hfound := (NameMap.mem_entries hnames).mp hb
    refine h.vars b.1 b.2 ⟨r, _, hm, ?_⟩
    show m.body.bindings.find? b.1 = some b.2
    rw [hbody]
    exact hfound

end Vm.Connected

/-! ## Runs -/

namespace Session

section

variable {registry : Registry} {config : Config} {heap : Nat} {task : TaskId} {s : Session}
  (hs : (boot registry config heap task).ReachesBy Vm.Connects Vm.Grants s)

include hs

theorem connected : s.Orderly ∧ s.vm.Connected :=
  hs.invariant (.boot registry config heap task) fun _ _ hlive hst h =>
    Vm.Connected.lasts.step h hlive hst

/-- In every run in which what the embedding program makes by hand runs code, binds names to
variables and looks them up in modules, if anything, the heap is wired. -/
theorem wired : s.vm.heap.Wired :=
  (connected hs).2.wired

/-- So packing a live value never stops the task: it succeeds, or the value is refused. -/
theorem pack_recovers {r : Ref} (hr : s.vm.heap.contains r = true) :
    (∃ p, s.vm.heap.pack r = .ok p) ∨ ∃ e, s.vm.heap.pack r = .error (.raised (.pack e)) := by
  have hsound := (connected hs).1.live.vm_live.heap
  exact (Heap.packWithin_packsIff hsound (wired hs) _ hr).imp And.left And.left

end

end Session
end ObjectMachine
