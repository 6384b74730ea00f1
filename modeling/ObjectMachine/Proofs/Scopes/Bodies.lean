import ObjectMachine.Proofs.Scopes.Bindings

/-!
# ObjectMachine.Proofs.Scopes.Bodies

What the bodies of methods refer to.

A method that the task makes runs code, and a closure captures each name once. Code stays code as
long as it is there, and no body is ever changed, so that this holds of a method for good.

* `Body.Whole` — a body runs code, if anything, and has captured each name once.
* `Heap.Whole` — the bodies of all methods are so.
* `Method.mem_refs` — a method holds on to its code and its module.
* `Heap.Whole.place`, `Heap.Whole.update` — new objects and other contents.
-/

namespace ObjectMachine

namespace Heap

variable {h h' : Heap} {r : Ref}

def IsCode (h : Heap) (r : Ref) : Prop :=
  ∃ c, h.payload r = .ok (.code c)

theorem Evolves.isCode {A : Ref → Prop} (he : h.Evolves A h') (hr : h.IsCode r) : h'.IsCode r := by
  obtain ⟨c, hc⟩ := hr
  exact ⟨c, he.payload_lasting hc trivial⟩

end Heap

/-- The body runs code, if anything, and has captured each name once. -/
structure Body.Whole (b : Body) (h : Heap) : Prop where
  code : ∀ r, b.code? = some r → h.IsCode r
  names : b.bindings.names.Nodup

namespace Body.Whole

variable {h h' : Heap} {b : Body} {code : Ref} {module : Option Ref}

theorem mono (hb : b.Whole h) (hcode : ∀ r, b.code? = some r → h.IsCode r → h'.IsCode r) :
    b.Whole h' :=
  ⟨fun r hr => hcode r hr (hb.code r hr), hb.names⟩

theorem native (f : Native) : Whole (.native f) h := by
  refine ⟨?_, List.nodup_nil⟩
  rintro _ ⟨⟩

theorem bytecode (hcode : h.IsCode code) : Whole (.bytecode code module) h := by
  refine ⟨?_, List.nodup_nil⟩
  rintro _ ⟨⟩
  exact hcode

theorem closure {bindings : NameMap Ref} (hcode : h.IsCode code) (hnames : bindings.names.Nodup) :
    Whole (.closure code module bindings) h := by
  refine ⟨?_, hnames⟩
  rintro _ ⟨⟩
  exact hcode

end Body.Whole

/-- What a method needs is held on to. -/
theorem Method.mem_refs {m : Method} {r : Ref}
    (h : m.receiver = some r ∨ m.body.code? = some r ∨ m.body.module? = some r) :
    r ∈ (Payload.method m).refs := by
  obtain ⟨name, body, receiver⟩ := m
  simp only [Payload.refs, Payload.markFn?]
  refine List.mem_append.mpr (h.imp Option.mem_toList.mpr fun hbody => ?_)
  cases body with
  | native f => rcases hbody with hcode | hmodule <;> contradiction
  | bytecode code module =>
    rcases hbody with hcode | hmodule
    · exact List.mem_cons.mpr (.inl (Option.some.inj hcode).symm)
    · exact List.mem_cons_of_mem code (Option.mem_toList.mpr hmodule)
  | closure code module bindings =>
    rcases hbody with hcode | hmodule
    · exact List.mem_cons.mpr (.inl (Option.some.inj hcode).symm)
    · exact List.mem_cons_of_mem code (List.mem_append_left _ (Option.mem_toList.mpr hmodule))

/-- Methods run code, if anything, and closures have captured each name once. -/
def Heap.Whole (h : Heap) : Prop :=
  ∀ r m, h.payload r = .ok (.method m) → m.body.Whole h

namespace Heap.Whole

variable {h h' : Heap}

/-- Some objects may be gone, but not the code of a method that is there. -/
theorem restrict (hw : h.Whole) (hback : ∀ r p, h'.payload r = .ok p → h.payload r = .ok p)
    (hcode : ∀ r m x, h'.payload r = .ok (.method m) → m.body.code? = some x → h.IsCode x →
      h'.IsCode x) : h'.Whole :=
  fun r m hm => (hw r m (hback r _ hm)).mono fun x hx => hcode r m x hm hx

theorem place (hw : h.Whole) (hf : h.FreeList) {o : Obj}
    (ho : ∀ m, o.payload = .method m → m.body.Whole h) : (h.place o).2.Whole := by
  have hevolves : h.Evolves noVar (h.place o).2 := Heap.Turns.place (Heap.Evolves.refl hf) o
  intro r m hm
  have hwhole : m.body.Whole h := by
    rcases payload_place_cases hf hm with ⟨-, hnew⟩ | hold
    · exact ho m hnew.symm
    · exact hw r m hold
  exact hwhole.mono fun _ _ => hevolves.isCode

/-- Other contents of what is neither code nor a method. -/
theorem update (hw : h.Whole) (x : Ref) {f : Payload → Payload}
    (hcode : ∀ c, f (.code c) = .code c) (hmethod : ∀ p m, f p = .method m → p = .method m) :
    (h.update x f).Whole := by
  have hkept : ∀ r, h.IsCode r → (h.update x f).IsCode r := by
    rintro r ⟨c, hc⟩
    obtain ⟨q, hq, rfl | rfl⟩ := payload_update_kept x f hc
    · exact ⟨c, hq⟩
    · rw [hcode] at hq
      exact ⟨c, hq⟩
  intro r m hm
  have hold : h.payload r = .ok (.method m) := by
    obtain ⟨p, hp, heq | heq⟩ := payload_update_cases hm
    · exact heq ▸ hp
    · exact hmethod p m heq.symm ▸ hp
  exact (hw r m hold).mono fun s _ => hkept s

end Heap.Whole

end ObjectMachine
