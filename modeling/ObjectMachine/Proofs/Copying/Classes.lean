import ObjectMachine.Proofs.Copying.RoundTrip
import ObjectMachine.Proofs.Scopes.Moves

/-!
# ObjectMachine.Proofs.Copying.Classes

The classes of copies.

A tree tells the kinds of objects but not their classes. So a copy has the built-in class of its
kind, whatever the class of the original was: an instance of a class below `Array` is sent, and
arrives as an instance of `Array`. An instance of a class below `Object` is not sent.

* `Payload.Mirrors` — contents of an original and of its copy.
* `Heap.Copying`, `Heap.Copied` — which object is a copy of which. Both are stated for any set of
  objects in which the copies may be, since a hash that is being filled does not stay as it is.
* `Heap.Furnished` — the singletons stand in their places, as they do in every run.
* `Vm.unpack_copied` — what is rebuilt from the tree of a value is a copy of the value.
* `Vm.copy_classes` — when copies keep the class.
-/

namespace ObjectMachine

open ObjectMachine.Action

/-! ### Copies -/

/-- What the methods of an original and of its copy run. Modules are not copied. -/
inductive Body.Mirrors (C : Ref → Ref → Prop) : Body → Body → Prop where
  | native (f : Native) : Mirrors C (.native f) (.native f)
  | bytecode {code code' : Ref} (module module' : Option Ref) : C code code' →
      Mirrors C (.bytecode code module) (.bytecode code' module')
  | closure {code code' : Ref} (module module' : Option Ref) {bindings bindings' : NameMap Ref} :
      C code code' →
      (∀ b' ∈ bindings'.entries, ∃ b ∈ bindings.entries, b.1 = b'.1 ∧ C b.2 b'.2) →
      Mirrors C (.closure code module bindings) (.closure code' module' bindings')

/-- Contents of an original and of its copy, where `C` relates what they consist of. Entries of a
hash whose keys have become equal have been merged. -/
inductive Payload.Mirrors (C : Ref → Ref → Prop) : Payload → Payload → Prop where
  | nil : Mirrors C .nil .nil
  | bool (b : Bool) : Mirrors C (.bool b) (.bool b)
  | int (i : Int64) : Mirrors C (.int i) (.int i)
  | float (x : Float) : Mirrors C (.float x) (.float x)
  | str (b : ByteArray) : Mirrors C (.str b) (.str b)
  | task {s t : TaskRef} : s.task = t.task → Mirrors C (.task s) (.task t)
  | array {xs ys : Array Ref} : List.Forall₂ C xs.toList ys.toList →
      Mirrors C (.array xs) (.array ys)
  | hash {s t : HashTable} :
      (∀ e ∈ t.entries, (∃ d ∈ s.entries, C d.1 e.1) ∧ ∃ d ∈ s.entries, C d.2 e.2) →
      Mirrors C (.hash s) (.hash t)
  | error {d e : ErrorInfo} : d.message = e.message → d.backtrace = e.backtrace →
      Option.Rel C d.cause e.cause → Mirrors C (.error d) (.error e)
  | method {m n : Method} : m.name = n.name → m.body.Mirrors C n.body →
      Option.Rel C m.receiver n.receiver → Mirrors C (.method m) (.method n)
  | code {c d : Code} : c.unit = d.unit → Mirrors C (.code c) (.code d)
  | var {x y : Option Ref} : Option.Rel C x y → Mirrors C (.var x) (.var y)

section Mono

variable {C D : Ref → Ref → Prop} (hCD : ∀ x y, C x y → D x y)

include hCD

theorem Body.Mirrors.mono {a b : Body} (h : a.Mirrors C b) : a.Mirrors D b := by
  cases h with
  | native f => exact .native f
  | bytecode module module' hcode => exact .bytecode module module' (hCD _ _ hcode)
  | closure module module' hcode hvars =>
    refine .closure module module' (hCD _ _ hcode) fun b' hb' => ?_
    obtain ⟨b, hb, hname, hvar⟩ := hvars b' hb'
    exact ⟨b, hb, hname, hCD _ _ hvar⟩

theorem Payload.Mirrors.mono {p q : Payload} (h : p.Mirrors C q) : p.Mirrors D q := by
  have hoption : ∀ {x y}, Option.Rel C x y → Option.Rel D x y :=
    fun hxy => optionRel_imp hxy fun _ _ _ _ => hCD _ _
  cases h with
  | nil => exact .nil
  | bool b => exact .bool b
  | int i => exact .int i
  | float x => exact .float x
  | str b => exact .str b
  | task ht => exact .task ht
  | array hxs => exact .array (hxs.imp hCD)
  | hash hes =>
    refine .hash fun e he => ?_
    obtain ⟨⟨d, hd, hkey⟩, d', hd', hvalue⟩ := hes e he
    exact ⟨⟨d, hd, hCD _ _ hkey⟩, d', hd', hCD _ _ hvalue⟩
  | error hmessage htrace hcause => exact .error hmessage htrace (hoption hcause)
  | method hname hbody hreceiver => exact .method hname (hbody.mono hCD) (hoption hreceiver)
  | code hunit => exact .code hunit
  | var hvalue => exact .var (hoption hvalue)

end Mono

namespace Heap

/-- Objects of the heap and copies of them, which are among those of `V`: a copy has the contents of
the original, and the built-in class of its kind. -/
def Copying (h : Heap) (V : Ref → Obj → Prop) (C : Ref → Ref → Prop) : Prop :=
  ∀ x y, C x y → ∃ o k q, h.get x = .ok o ∧ Builtin.ofPayload? o.payload = some k ∧
    o.payload.Mirrors C q ∧ V y ⟨k.ref h.id, q⟩

/-- The largest such relation: a copy, and so all that it consists of. -/
def Copied (h : Heap) (V : Ref → Obj → Prop) (x y : Ref) : Prop :=
  ∃ C, h.Copying V C ∧ C x y

namespace Copied

variable {h : Heap} {V W : Ref → Obj → Prop} {x y : Ref}

theorem copying : h.Copying V (h.Copied V) := by
  rintro x y ⟨C, hC, hxy⟩
  obtain ⟨o, k, q, ho, hk, hq, hy⟩ := hC x y hxy
  exact ⟨o, k, q, ho, hk, hq.mono fun a b hab => ⟨C, hC, hab⟩, hy⟩

theorem intro {o : Obj} {k : Builtin} {q : Payload} (ho : h.get x = .ok o)
    (hk : Builtin.ofPayload? o.payload = some k) (hq : o.payload.Mirrors (h.Copied V) q)
    (hy : V y ⟨k.ref h.id, q⟩) : h.Copied V x y := by
  refine ⟨fun a b => h.Copied V a b ∨ (a = x ∧ b = y), ?_, .inr ⟨rfl, rfl⟩⟩
  rintro a b (hab | ⟨rfl, rfl⟩)
  · obtain ⟨o, k, q, ho, hk, hq, hb⟩ := copying a b hab
    exact ⟨o, k, q, ho, hk, hq.mono fun _ _ => .inl, hb⟩
  · exact ⟨o, k, q, ho, hk, hq.mono fun _ _ => .inl, hy⟩

theorem mono (hVW : ∀ r o, V r o → W r o) (hxy : h.Copied V x y) : h.Copied W x y := by
  obtain ⟨C, hC, hxy⟩ := hxy
  refine ⟨C, fun a b hab => ?_, hxy⟩
  obtain ⟨o, k, q, ho, hk, hq, hb⟩ := hC a b hab
  exact ⟨o, k, q, ho, hk, hq, hVW _ _ hb⟩

end Copied

/-! ### The singletons -/

/-- Free cells are listed, and nil and the truth values stand in their places. -/
structure Furnished (h : Heap) : Prop where
  freeList : h.FreeList
  nil : h.get (nilRef h.id) = .ok ⟨Builtin.nil.ref h.id, .nil⟩
  bool : ∀ b, h.get (boolRef h.id b) = .ok ⟨Builtin.bool.ref h.id, .bool b⟩

/-- Everything is there and as it was. -/
theorem Turns.get {h h' : Heap} (ht : h.Turns (fun _ => Eq) h') {r : Ref} {o : Obj}
    (ho : h.get r = .ok o) : h'.get r = .ok o := by
  obtain ⟨_, hp, rfl⟩ := ht.kept r o ho
  exact hp

theorem Turns.trans_same {h h' h'' : Heap} (ht : h.Turns (fun _ => Eq) h')
    (ht' : h'.Turns (fun _ => Eq) h'') : h.Turns (fun _ => Eq) h'' :=
  ht.trans_of ht' fun _ _ _ _ _ => Eq.trans

namespace Furnished

variable {h h' : Heap}

theorem keep (hh : h.Furnished) (hid : h'.id = h.id) (hf : h'.FreeList)
    (hkeep : ∀ r o, o.payload = .nil ∨ (∃ b, o.payload = .bool b) → h.get r = .ok o →
      h'.get r = .ok o) : h'.Furnished where
  freeList := hf
  nil := by
    rw [hid]
    exact hkeep _ _ (.inl rfl) hh.nil
  bool b := by
    rw [hid]
    exact hkeep _ _ (.inr ⟨b, rfl⟩) (hh.bool b)

theorem evolves {A : Ref → Prop} (hh : h.Furnished) (he : h.Evolves A h') : h'.Furnished := by
  refine hh.keep he.id he.freeList fun r o hsingle ho => ?_
  obtain ⟨p, hp, hbecomes⟩ := he.kept r o ho
  have hfixed : o.payload.Fixed := by
    rcases hsingle with heq | ⟨b, heq⟩ <;> rw [heq] <;> trivial
  rwa [hbecomes.eq_of_fixed hfixed] at hp

theorem turns (hh : h.Furnished) (ht : h.Turns (fun _ => Eq) h') : h'.Furnished :=
  hh.evolves (A := noVar) (.of_eq ht)

theorem update {x : Ref} {t : HashTable} (hh : h.Furnished) (hx : h.payload x = .ok (.hash t))
    (f : Payload → Payload) : (h.update x f).Furnished := by
  refine hh.keep rfl (update_freeList hh.freeList x f) fun r o hsingle ho => ?_
  refine get_update_ne hx ?_ ho
  rintro rfl
  rw [show h.payload r = .ok o.payload from payload_eq_ok_iff.mpr ⟨o.cls, ho⟩] at hx
  have hhash := Except.ok.inj hx
  rcases hsingle with heq | ⟨b, heq⟩ <;> rw [heq] at hhash <;> cases hhash

end Furnished
end Heap

/-- What is in a map after an entry was put there. -/
theorem NameMap.mem_insertIn {α : Type} {l : List (String × α)} {name : String} {v : α}
    {e : String × α} (he : e ∈ insertIn l name v) : e ∈ l ∨ e = (name, v) := by
  induction l with
  | nil => exact .inr (List.mem_singleton.mp he)
  | cons d rest ih =>
    obtain ⟨n, w⟩ := d
    unfold insertIn at he
    split at he
    case isTrue hn =>
      subst hn
      rcases List.mem_cons.mp he with rfl | he
      · exact .inr rfl
      · exact .inl (List.mem_cons_of_mem _ he)
    case isFalse =>
      rcases List.mem_cons.mp he with rfl | he
      · exact .inl List.mem_cons_self
      · exact (ih he).imp_left (List.mem_cons_of_mem _)

namespace Vm

/-- The objects of `v'` that are not in `v`, and those that have no identity of their own. -/
def fresh (v v' : Vm) (r : Ref) (o : Obj) : Prop :=
  v'.heap.get r = .ok o ∧ (v.heap.contains r = true → o.payload.Common)

variable {h : Heap} {u v v' w : Vm} {r x y : Ref}

theorem fresh_later (ht : v'.heap.Turns (fun _ => Eq) w.heap) (r : Ref) (o : Obj)
    (hr : fresh v v' r o) : fresh v w r o :=
  ⟨ht.get hr.1, hr.2⟩

theorem fresh_earlier (ht : u.heap.Turns (fun _ => Eq) v.heap) (r : Ref) (o : Obj)
    (hr : fresh v w r o) : fresh u w r o :=
  ⟨hr.1, fun hc => hr.2 (ht.contains hc)⟩

theorem new_run {k : Builtin} {p : Payload} (hf : v.heap.FreeList)
    (hrun : Vm.new k p v = .ok r v') :
    fresh v v' r ⟨k.ref v.heap.id, p⟩ ∧ v.heap.Turns (fun _ => Eq) v'.heap := by
  rw [new_eq] at hrun
  cases hrun
  refine ⟨⟨?_, fun hc => ?_⟩, .place (.refl hf fun _ _ => rfl) _⟩
  · exact (Heap.get_place hf _ _).trans (if_pos rfl)
  · rw [Heap.place_fresh hf] at hc
    cases hc

/-- What an action leaves as it was that only adds. -/
theorem adds_run {α : Type} {a : Action α} [Adds a] {z : α} (hh : v.heap.Furnished)
    (hrun : a v = .ok z v') : v.heap.Turns (fun _ => Eq) v'.heap ∧ v'.heap.Furnished :=
  have ht := (Acts.of_ok (R := Eq) hh.freeList hrun).heap
  ⟨ht, hh.turns ht⟩

/-! ### What is rebuilt -/

/-- What is rebuilt from the tree, in whatever state, is a copy of the object. -/
def Replicates (h : Heap) (x : Ref) (p : Packed) : Prop :=
  ∀ {v y v'}, v.heap.Furnished → v.heap.id = h.id → unpack p v = .ok y v' →
    h.Copied (fresh v v') x y

theorem unpackItems_copied {xs : List Ref} {ps : List Packed}
    (hxs : List.Forall₂ (Replicates h) xs ps) : ∀ {v ys v'}, v.heap.Furnished → v.heap.id = h.id →
    unpackItems ps v = .ok ys v' → List.Forall₂ (h.Copied (fresh v v')) xs ys := by
  induction hxs with
  | nil =>
    intro v ys v' _ _ hrun
    unfold unpackItems at hrun
    obtain ⟨rfl, rfl⟩ := pure_eq_ok.mp hrun
    exact .nil
  | @cons x p xs ps hx _ ih =>
    intro v ys v' hh hid hrun
    unfold unpackItems at hrun
    obtain ⟨y, v₁, hy, hrun⟩ := bind_eq_ok.mp hrun
    obtain ⟨zs, v₂, hzs, hrun⟩ := bind_eq_ok.mp hrun
    obtain ⟨rfl, rfl⟩ := pure_eq_ok.mp hrun
    obtain ⟨ht₁, hh₁⟩ := adds_run hh hy
    have := unpackItems_adds ps
    obtain ⟨ht₂, -⟩ := adds_run hh₁ hzs
    refine .cons ((hx hh hid hy).mono (fresh_later ht₂)) ?_
    exact (ih hh₁ (ht₁.id.trans hid) hzs).imp fun _ _ => .mono (fresh_earlier ht₁)

theorem unpackOption_copied {x : Option Ref} {p : Option Packed}
    (hx : Option.Rel (Replicates h) x p) {y : Option Ref} (hh : v.heap.Furnished)
    (hid : v.heap.id = h.id) (hrun : unpackOption p v = .ok y v') :
    Option.Rel (h.Copied (fresh v v')) x y := by
  cases hx with
  | none =>
    unfold unpackOption at hrun
    obtain ⟨rfl, rfl⟩ := pure_eq_ok.mp hrun
    exact .none
  | some hx =>
    unfold unpackOption at hrun
    obtain ⟨y, v₁, hy, hrun⟩ := bind_eq_ok.mp hrun
    obtain ⟨rfl, rfl⟩ := pure_eq_ok.mp hrun
    exact .some (hx hh hid hy)

/-- Each variable that is made is a copy of a captured variable of the same name. -/
theorem unpackBindings_copied {bs : List (String × Ref)} : ∀ {qs : List (String × Option Packed)}
    {vars vars' : NameMap Ref} {v v' : Vm},
    (∀ q ∈ qs, ∃ b ∈ bs, h.view.Captured (Replicates h) b q) → v.heap.Furnished →
    v.heap.id = h.id → unpackBindings qs vars v = .ok vars' v' →
    v.heap.Turns (fun _ => Eq) v'.heap ∧ ∀ e ∈ vars'.entries, e ∈ vars.entries ∨
      ∃ b ∈ bs, b.1 = e.1 ∧ h.Copied (fresh v v') b.2 e.2 := by
  intro qs
  induction qs with
  | nil =>
    intro vars vars' v v' _ hh _ hrun
    unfold unpackBindings at hrun
    obtain ⟨rfl, rfl⟩ := pure_eq_ok.mp hrun
    exact ⟨.refl hh.freeList fun _ _ => rfl, fun e he => .inl he⟩
  | cons q qs ih =>
    intro vars vars' v v' hqs hh hid hrun
    obtain ⟨name, value⟩ := q
    unfold unpackBindings at hrun
    obtain ⟨found, v₁, hfound, hrun⟩ := bind_eq_ok.mp hrun
    obtain ⟨var, v₂, hvar, hrun⟩ := bind_eq_ok.mp hrun
    have := unpackOption_adds value
    obtain ⟨ht₁, hh₁⟩ := adds_run hh hfound
    obtain ⟨hnew, ht₂⟩ := new_run hh₁.freeList hvar
    have ht := ht₁.trans_same ht₂
    obtain ⟨ht₃, hrest⟩ := ih (fun q hq => hqs q (List.mem_cons_of_mem _ hq)) (hh₁.turns ht₂)
      (ht.id.trans hid) hrun
    refine ⟨ht.trans_same ht₃, fun e he => ?_⟩
    rcases hrest e he with hold | ⟨b, hb, hname, hcopy⟩
    · rcases NameMap.mem_insertIn hold with hold | rfl
      · exact .inl hold
      · obtain ⟨b, hb, hname, x, hx, hxv⟩ := hqs _ List.mem_cons_self
        refine .inr ⟨b, hb, hname, ?_⟩
        obtain ⟨k, hk⟩ := Heap.payload_eq_ok_iff.mp hx
        refine .intro hk rfl (.var ?_) ?_ (k := .var) (q := .var found)
        · exact optionRel_imp (unpackOption_copied hxv hh hid hfound) fun _ _ _ _ =>
            .mono (fresh_later (ht₂.trans_same ht₃))
        · rw [← hid, ← ht₁.id]
          exact fresh_earlier ht₁ _ _ (fresh_later ht₃ _ _ hnew)
    · exact .inr ⟨b, hb, hname, hcopy.mono (fresh_earlier ht)⟩

/-- Code is made anew from its unit. -/
theorem loadCode_copied {unit : CodeUnit} (hx : h.view.Code x unit) (hh : v.heap.Furnished)
    (hid : v.heap.id = h.id) (hrun : loadCode unit v = .ok y v') : h.Copied (fresh v v') x y := by
  obtain ⟨c, hc, rfl⟩ := hx
  obtain ⟨k, hk⟩ := Heap.payload_eq_ok_iff.mp hc
  obtain ⟨⟨name, code, consts, names, locals, freevars, arity⟩, refs⟩ := c
  unfold loadCode at hrun
  obtain ⟨refs', v₁, hrefs, hnew⟩ := bind_eq_ok.mp hrun
  have ht := ((loadConstants_yields consts hh.freeList).works.of_ok hrefs).heap
  obtain ⟨hnew, -⟩ := new_run ht.freeList hnew
  refine .intro hk rfl (.code rfl) ?_ (k := .code) (q := .code ⟨_, refs'.toArray⟩)
  rw [← hid, ← ht.id]
  exact fresh_earlier ht _ _ hnew

theorem importOption_adds (name : Option String) : Adds (importOption name) :=
  Yields.adds fun _ => importOption_yields name

theorem unpackBody_copied {b : Body} {body : PackedBody} (hb : h.view.Body (Replicates h) b body)
    (hh : v.heap.Furnished) (hid : v.heap.id = h.id) {b' : Body}
    (hrun : unpackBody body v = .ok b' v') : b.Mirrors (h.Copied (fresh v v')) b' := by
  have hcode : ∀ {code unit name code' module' v₁ v₂}, h.view.Code code unit →
      importOption name v = .ok module' v₁ → loadCode unit v₁ = .ok code' v₂ →
      v.heap.Turns (fun _ => Eq) v₂.heap ∧ h.Copied (fresh v v₂) code code' := by
    intro code unit name code' module' v₁ v₂ hunit hmodule hcode
    have := importOption_adds name
    obtain ⟨ht₁, hh₁⟩ := adds_run hh hmodule
    obtain ⟨ht₂, -⟩ := adds_run hh₁ hcode
    exact ⟨ht₁.trans_same ht₂,
      (loadCode_copied hunit hh₁ (ht₁.id.trans hid) hcode).mono (fresh_earlier ht₁)⟩
  cases hb with
  | native f =>
    unfold unpackBody at hrun
    obtain ⟨rfl, rfl⟩ := pure_eq_ok.mp hrun
    exact .native f
  | bytecode hunit hname =>
    unfold unpackBody at hrun
    obtain ⟨module', v₁, hmodule, hrun⟩ := bind_eq_ok.mp hrun
    obtain ⟨code', v₂, hload, hrun⟩ := bind_eq_ok.mp hrun
    obtain ⟨rfl, rfl⟩ := pure_eq_ok.mp hrun
    exact .bytecode _ _ (hcode hunit hmodule hload).2
  | closure hunit hname hps =>
    unfold unpackBody at hrun
    obtain ⟨module', v₁, hmodule, hrun⟩ := bind_eq_ok.mp hrun
    obtain ⟨code', v₂, hload, hrun⟩ := bind_eq_ok.mp hrun
    obtain ⟨vars, v₃, hvars, hrun⟩ := bind_eq_ok.mp hrun
    obtain ⟨rfl, rfl⟩ := pure_eq_ok.mp hrun
    obtain ⟨ht, hcopy⟩ := hcode hunit hmodule hload
    obtain ⟨ht', hbindings⟩ := unpackBindings_copied (fun q hq =>
      forall₂_mem_right hps ((NameMap.sortByName_perm _).mem_iff.mp hq)) (hh.turns ht)
      (ht.id.trans hid) hvars
    refine .closure _ _ (hcopy.mono (fresh_later ht')) fun e he => ?_
    rcases hbindings e he with hold | ⟨b, hb, hname, hb'⟩
    · cases hold
    · exact ⟨b, hb, hname, hb'.mono (fresh_earlier ht)⟩

/-! ### Hashes -/

/-- Filling a hash: the entries are old ones, or have the new value, or are new. -/
theorem hashSet_run {hash key value : Ref} (hrun : hashSet hash key value v = .ok () v') :
    ∃ t u : HashTable, v.heap.payload hash = .ok (.hash t) ∧
      v' = { v with heap := v.heap.update hash (Payload.setTable u) } ∧
      ∀ e ∈ u.entries, (e.1 = key ∨ ∃ d ∈ t.entries, d.1 = e.1) ∧
        (e.2 = value ∨ ∃ d ∈ t.entries, d.2 = e.2) := by
  unfold hashSet at hrun
  obtain ⟨p, v₁, hp, hrun⟩ := bind_eq_ok.mp hrun
  obtain ⟨hhash, rfl⟩ := payload_eq_ok.mp hp
  cases p with
  | hash t =>
    obtain ⟨found, hfound, hrun⟩ := Reads.bind_eq_ok hrun
    cases found with
    | none =>
      cases hrun
      refine ⟨t, _, hhash, rfl, fun e he => ?_⟩
      rcases Array.mem_push.mp he with he | rfl
      · exact ⟨.inr ⟨e, he, rfl⟩, .inr ⟨e, he, rfl⟩⟩
      · exact ⟨.inl rfl, .inl rfl⟩
    | some i =>
      cases hrun
      refine ⟨t, _, hhash, rfl, fun e he => ?_⟩
      obtain ⟨j, hj⟩ := Array.mem_iff_getElem?.mp he
      rw [Array.getElem?_modify] at hj
      split at hj
      · obtain ⟨d, hd, rfl⟩ := Option.map_eq_some_iff.mp hj
        exact ⟨.inr ⟨d, Array.mem_of_getElem? hd, rfl⟩, .inl rfl⟩
      · have he := Array.mem_of_getElem? hj
        exact ⟨.inr ⟨e, he, rfl⟩, .inr ⟨e, he, rfl⟩⟩
  | _ =>
    obtain ⟨c, v₁, -, hraise⟩ := bind_eq_ok.mp hrun
    cases hraise

/-- The objects that are new, apart from the hash that is being filled. -/
def freshBeside (hash : Ref) (u v : Vm) (r : Ref) (o : Obj) : Prop :=
  fresh u v r o ∧ r ≠ hash

/-- What was made while the hash was there is not the hash. -/
theorem fresh_beside {hash : Ref} {t : HashTable}
    (huv : ∀ r, u.heap.contains r = true → v.heap.contains r = true)
    (hx : v.heap.payload hash = .ok (.hash t)) (ht : v.heap.Turns (fun _ => Eq) v'.heap) (r : Ref)
    (o : Obj) (hr : fresh v v' r o) : freshBeside hash u v' r o := by
  refine ⟨⟨hr.1, fun hc => hr.2 (huv r hc)⟩, ?_⟩
  rintro rfl
  obtain ⟨_, hx', rfl⟩ := ht.payload hx
  rw [Heap.payload_eq_ok_iff.mpr ⟨o.cls, hr.1⟩] at hx'
  have hcommon := hr.2 (Heap.contains_of_payload hx)
  rw [Except.ok.inj hx'] at hcommon
  exact hcommon

/-- One entry more, or another value for an old one. -/
theorem hashSet_copied {hash key value : Ref} {s t : HashTable} {k : Ref}
    (hh : v.heap.Furnished) (hget : v.heap.get hash = .ok ⟨k, .hash t⟩)
    (hst : (Payload.hash s).Mirrors (h.Copied (freshBeside hash u v)) (.hash t))
    (hkey : ∃ d ∈ s.entries, h.Copied (freshBeside hash u v) d.1 key)
    (hvalue : ∃ d ∈ s.entries, h.Copied (freshBeside hash u v) d.2 value)
    (hrun : hashSet hash key value v = .ok () v') :
    v'.heap.Furnished ∧ v'.heap.id = v.heap.id ∧
      (∀ r, v.heap.contains r = true → v'.heap.contains r = true) ∧
      ∃ t', v'.heap.get hash = .ok ⟨k, .hash t'⟩ ∧
        (Payload.hash s).Mirrors (h.Copied (freshBeside hash u v')) (.hash t') := by
  have hx : v.heap.payload hash = .ok (.hash t) := Heap.payload_eq_ok_iff.mpr ⟨k, hget⟩
  obtain ⟨t₀, t', ht₀, rfl, hentries⟩ := hashSet_run hrun
  rw [hx] at ht₀
  cases ht₀
  refine ⟨hh.update hx _, rfl, fun r hr => Heap.contains_update.mpr hr, t', ?_, ?_⟩
  · exact (Heap.get_update_of_get hget).trans (by simp [Payload.setTable])
  · have hkeep : ∀ r o, freshBeside hash u v r o → freshBeside hash u
        { v with heap := v.heap.update hash (Payload.setTable t') } r o :=
      fun r o hr => ⟨⟨Heap.get_update_ne hx hr.2 hr.1.1, hr.1.2⟩, hr.2⟩
    cases hst with
    | hash hst =>
      refine .hash fun e he => ⟨?_, ?_⟩
      · rcases (hentries e he).1 with heq | ⟨d, hd, heq⟩
        · obtain ⟨c, hc, hcopy⟩ := hkey
          exact ⟨c, hc, heq ▸ hcopy.mono hkeep⟩
        · obtain ⟨c, hc, hcopy⟩ := (hst d hd).1
          exact ⟨c, hc, heq ▸ hcopy.mono hkeep⟩
      · rcases (hentries e he).2 with heq | ⟨d, hd, heq⟩
        · obtain ⟨c, hc, hcopy⟩ := hvalue
          exact ⟨c, hc, heq ▸ hcopy.mono hkeep⟩
        · obtain ⟨c, hc, hcopy⟩ := (hst d hd).2
          exact ⟨c, hc, heq ▸ hcopy.mono hkeep⟩

theorem unpackEntries_copied {hash k : Ref} {s : HashTable} :
    ∀ {es : List (Packed × Packed)} {t : HashTable} {v v' : Vm},
    (∀ e ∈ es, ∃ d ∈ s.entries, Replicates h d.1 e.1 ∧ Replicates h d.2 e.2) →
    v.heap.Furnished → v.heap.id = h.id →
    (∀ r, u.heap.contains r = true → v.heap.contains r = true) →
    v.heap.get hash = .ok ⟨k, .hash t⟩ →
    (Payload.hash s).Mirrors (h.Copied (freshBeside hash u v)) (.hash t) →
    unpackEntries hash es v = .ok () v' → ∃ t', v'.heap.get hash = .ok ⟨k, .hash t'⟩ ∧
      (Payload.hash s).Mirrors (h.Copied (fresh u v')) (.hash t') := by
  intro es
  induction es with
  | nil =>
    intro t v v' _ _ _ _ hget hst hrun
    unfold unpackEntries at hrun
    obtain ⟨-, rfl⟩ := pure_eq_ok.mp hrun
    exact ⟨t, hget, hst.mono fun _ _ => .mono fun _ _ => And.left⟩
  | cons e es ih =>
    intro t v v' hes hh hid huv hget hst hrun
    obtain ⟨p, q⟩ := e
    unfold unpackEntries at hrun
    obtain ⟨key, v₁, hkey, hrun⟩ := bind_eq_ok.mp hrun
    obtain ⟨value, v₂, hvalue, hrun⟩ := bind_eq_ok.mp hrun
    obtain ⟨⟨⟩, v₃, hset, hrun⟩ := bind_eq_ok.mp hrun
    obtain ⟨ht₁, hh₁⟩ := adds_run hh hkey
    obtain ⟨ht₂, hh₂⟩ := adds_run hh₁ hvalue
    have ht := ht₁.trans_same ht₂
    have hx : v.heap.payload hash = .ok (.hash t) := Heap.payload_eq_ok_iff.mpr ⟨k, hget⟩
    obtain ⟨d, hd, hcopyKey, hcopyValue⟩ := hes _ List.mem_cons_self
    have hkey' := (hcopyKey hh hid hkey).mono fun r o hr =>
      fresh_beside huv hx ht r o (fresh_later ht₂ r o hr)
    have hvalue' := (hcopyValue hh₁ (ht₁.id.trans hid) hvalue).mono fun r o hr =>
      fresh_beside huv hx ht r o (fresh_earlier ht₁ r o hr)
    have hst₂ := hst.mono fun _ _ => Heap.Copied.mono (W := freshBeside hash u v₂) fun r o hr =>
      ⟨fresh_later ht r o hr.1, hr.2⟩
    obtain ⟨hh₃, hid₃, hkeep, t', hget₃, hst₃⟩ := hashSet_copied hh₂ (ht.get hget) hst₂
      ⟨d, hd, hkey'⟩ ⟨d, hd, hvalue'⟩ hset
    exact ih (fun e he => hes e (List.mem_cons_of_mem _ he)) hh₃ (hid₃.trans (ht.id.trans hid))
      (fun r hr => hkeep r (ht.contains (huv r hr))) hget₃ hst₃ hrun

/-! ### Trees -/

/-- What is rebuilt from the tree of a value is a copy of the value. -/
theorem unpack_copied : ∀ {m : Nat} {x : Ref} {p : Packed}, h.view.Tree m x p →
    Replicates h x p := by
  intro m
  induction m with
  | zero => intro x p ht; exact ht.elim
  | succ m ih =>
    intro x p ht v y v' hh hid hrun
    obtain ⟨o, hx, hp⟩ := ht
    obtain ⟨c, ho⟩ := Heap.payload_eq_ok_iff.mp hx
    have hoption : ∀ {x : Option Ref} {q : Option Packed}, Option.Rel (h.view.Tree m) x q →
        Option.Rel (Replicates h) x q := fun hq => optionRel_imp hq fun _ _ _ _ => ih
    -- a new object that holds what was rebuilt before it
    have hnew : ∀ {k : Builtin} {q : Payload} {v₁ : Vm}, Builtin.ofPayload? o = some k →
        v.heap.Turns (fun _ => Eq) v₁.heap → v₁.heap.Furnished →
        o.Mirrors (h.Copied (fresh v v₁)) q → Vm.new k q v₁ = .ok y v' →
        h.Copied (fresh v v') x y := by
      intro k q v₁ hk ht hh₁ hq hrun
      obtain ⟨hy, ht'⟩ := new_run hh₁.freeList hrun
      refine .intro ho hk (hq.mono fun _ _ => .mono (fresh_later ht')) ?_
      rw [← hid, ← ht.id]
      exact fresh_earlier ht _ _ hy
    have hsame := Heap.Turns.refl (R := fun _ => Eq) hh.freeList fun _ _ => rfl
    cases hp with
    | nil =>
      unfold unpack at hrun
      cases hrun
      refine .intro ho rfl .nil ?_ (k := .nil)
      rw [← hid]
      exact ⟨hh.nil, fun _ => trivial⟩
    | bool b =>
      unfold unpack at hrun
      cases hrun
      refine .intro ho rfl (.bool b) ?_ (k := .bool)
      rw [← hid]
      exact ⟨hh.bool b, fun _ => trivial⟩
    | int i =>
      unfold unpack at hrun
      exact hnew rfl hsame hh (.int i) hrun
    | float z =>
      unfold unpack at hrun
      exact hnew rfl hsame hh (.float z) hrun
    | str b =>
      unfold unpack at hrun
      exact hnew rfl hsame hh (.str b) hrun
    | task t =>
      unfold unpack at hrun
      exact hnew rfl hsame hh (.task rfl) hrun (q := .task ⟨t.task, t.task == v.task⟩)
    | @array items ps hps =>
      unfold unpack at hrun
      obtain ⟨ys, v₁, hys, hrun⟩ := bind_eq_ok.mp hrun
      have := unpackItems_adds ps
      obtain ⟨ht₁, hh₁⟩ := adds_run hh hys
      refine hnew rfl ht₁ hh₁ (.array ?_) hrun
      rw [List.toList_toArray]
      exact unpackItems_copied (hps.imp fun _ _ => ih) hh hid hys
    | @hash s qs hqs =>
      unfold unpack at hrun
      obtain ⟨hash, v₁, hhash, hrun⟩ := bind_eq_ok.mp hrun
      obtain ⟨⟨⟩, v₂, hfill, hrun⟩ := bind_eq_ok.mp hrun
      obtain ⟨rfl, rfl⟩ := pure_eq_ok.mp hrun
      obtain ⟨hfresh, ht₁⟩ := new_run hh.freeList hhash
      have hes : ∀ e ∈ qs, ∃ d ∈ s.entries, Replicates h d.1 e.1 ∧ Replicates h d.2 e.2 := by
        intro e he
        obtain ⟨d, hd, hkey, hvalue⟩ := forall₂_mem_right hqs he
        exact ⟨d, Array.mem_toList_iff.mp hd, ih hkey, ih hvalue⟩
      obtain ⟨t, hget, hst⟩ := unpackEntries_copied hes (hh.turns ht₁) (ht₁.id.trans hid)
        (fun _ => ht₁.contains) hfresh.1 (.hash fun e he => absurd he (Array.not_mem_empty e)) hfill
      refine .intro ho rfl hst ⟨?_, hfresh.2⟩ (k := .hash)
      rw [← hid]
      exact hget
    | @error e cause hcause =>
      unfold unpack at hrun
      obtain ⟨found, v₁, hfound, hrun⟩ := bind_eq_ok.mp hrun
      have := unpackOption_adds cause
      obtain ⟨ht₁, hh₁⟩ := adds_run hh hfound
      exact hnew rfl ht₁ hh₁
        (.error rfl rfl (unpackOption_copied (hoption hcause) hh hid hfound)) hrun
        (q := .error ⟨e.message, found, e.backtrace⟩)
    | @method d body receiver hbody hreceiver =>
      unfold unpack at hrun
      obtain ⟨found, v₁, hfound, hrun⟩ := bind_eq_ok.mp hrun
      obtain ⟨b, v₂, hb, hrun⟩ := bind_eq_ok.mp hrun
      have := unpackOption_adds receiver
      have : Adds (unpackBody body) := Yields.adds fun _ => unpackBody_yields body
      obtain ⟨ht₁, hh₁⟩ := adds_run hh hfound
      obtain ⟨ht₂, hh₂⟩ := adds_run hh₁ hb
      refine hnew rfl (ht₁.trans_same ht₂) hh₂ (.method rfl ?_ ?_) hrun
        (q := .method ⟨d.name, b, found⟩)
      · have hbody := hbody.mono (T := Replicates h) (.of_le (le_refl _)) fun _ _ => ih
        exact (unpackBody_copied hbody hh₁ (ht₁.id.trans hid) hb).mono fun _ _ =>
          .mono (fresh_earlier ht₁)
      · exact optionRel_imp (unpackOption_copied (hoption hreceiver) hh hid hfound)
          fun _ _ _ _ => .mono (fresh_later ht₂)

end Vm

/-! ### Parts -/

namespace Heap

variable {h h' : Heap} {C : Ref → Ref → Prop} {V : Ref → Obj → Prop} {v w x y : Ref}

/-- The parts of a value that has a tree have trees. -/
theorem tree_of_part {m : Nat} {p : Packed} (ht : h.view.Tree m v p) (hx : h.Part v x) :
    ∃ n q, h.view.Tree n x q := by
  have hcontents : ∀ {x o}, (∃ n q, h.view.Tree n x q) → h.payload x = .ok o →
      ∃ n q, h.view.Contents (h.view.Tree n) o q := by
    rintro x o ⟨_ | n, q, hq⟩ ho
    · exact hq.elim
    · obtain ⟨o', ho', hq⟩ := hq
      obtain rfl := Except.ok.inj (ho.symm.trans ho')
      exact ⟨n, q, hq⟩
  induction hx with
  | self => exact ⟨m, p, ht⟩
  | item _ ho hmem ih =>
    obtain ⟨n, _, hq⟩ := hcontents ih ho
    cases hq with
    | array hps =>
      obtain ⟨q, -, hq⟩ := forall₂_mem_left hps (Array.mem_toList_iff.mpr hmem)
      exact ⟨n, q, hq⟩
  | key _ ho hmem ih =>
    obtain ⟨n, _, hq⟩ := hcontents ih ho
    cases hq with
    | hash hqs =>
      obtain ⟨e, he, rfl⟩ := Array.mem_map.mp hmem
      obtain ⟨q, -, hq, -⟩ := forall₂_mem_left hqs (Array.mem_toList_iff.mpr he)
      exact ⟨n, q.1, hq⟩
  | value _ ho hmem ih =>
    obtain ⟨n, _, hq⟩ := hcontents ih ho
    cases hq with
    | hash hqs =>
      obtain ⟨e, he, rfl⟩ := Array.mem_map.mp hmem
      obtain ⟨q, -, -, hq⟩ := forall₂_mem_left hqs (Array.mem_toList_iff.mpr he)
      exact ⟨n, q.2, hq⟩
  | cause _ ho hcause ih =>
    obtain ⟨n, _, hq⟩ := hcontents ih ho
    cases hq with
    | error hrel =>
      rw [hcause] at hrel
      cases hrel with
      | some hq => exact ⟨n, _, hq⟩
  | receiver _ ho hreceiver ih =>
    obtain ⟨n, _, hq⟩ := hcontents ih ho
    cases hq with
    | method _ hrel =>
      rw [hreceiver] at hrel
      cases hrel with
      | some hq => exact ⟨n, _, hq⟩
  | captured _ ho hbody hb hvar ih =>
    obtain ⟨n, _, hq⟩ := hcontents ih ho
    cases hq with
    | method hq _ =>
      rw [hbody] at hq
      cases hq with
      | closure _ _ hps =>
        obtain ⟨⟨name, q⟩, -, -, value, hvalue, hrel⟩ := forall₂_mem_left hps hb
        cases hvar.symm.trans hvalue
        cases hrel with
        | some hq => exact ⟨n, _, hq⟩

theorem kind_of_tree {m : Nat} {p : Packed} (ht : h.view.Tree m x p) :
    ∃ o k, h.get x = .ok o ∧ Builtin.ofPayload? o.payload = some k := by
  cases m with
  | zero => exact ht.elim
  | succ m =>
    obtain ⟨o, ho, hq⟩ := ht
    obtain ⟨c, hc⟩ := payload_eq_ok_iff.mp ho
    cases hq <;> exact ⟨_, _, hc, rfl⟩

/-- What a copy consists of are copies of what the original consists of. -/
theorem Copying.part (hC : h.Copying V C) (hV : ∀ r o, V r o → h'.get r = .ok o) (hvw : C v w)
    (hy : h'.Part w y) : ∃ x, h.Part v x ∧ C x y := by
  have hmirrors : ∀ {x y o}, C x y → h'.payload y = .ok o →
      ∃ p, h.payload x = .ok p ∧ p.Mirrors C o := by
    intro x y o hxy ho
    obtain ⟨p, k, q, hp, -, hq, hy⟩ := hC x y hxy
    rw [payload_eq_ok_iff.mpr ⟨_, hV _ _ hy⟩] at ho
    cases ho
    exact ⟨p.payload, payload_eq_ok_iff.mpr ⟨p.cls, hp⟩, hq⟩
  induction hy with
  | self => exact ⟨v, .self, hvw⟩
  | item _ ho hmem ih =>
    obtain ⟨x, hx, hxy⟩ := ih
    obtain ⟨_, hp, hq⟩ := hmirrors hxy ho
    cases hq with
    | array hxs =>
      obtain ⟨z, hz, hzr⟩ := forall₂_mem_right hxs (Array.mem_toList_iff.mpr hmem)
      exact ⟨z, .item hx hp (Array.mem_toList_iff.mp hz), hzr⟩
  | key _ ho hmem ih =>
    obtain ⟨x, hx, hxy⟩ := ih
    obtain ⟨_, hp, hq⟩ := hmirrors hxy ho
    cases hq with
    | hash hes =>
      obtain ⟨e, he, rfl⟩ := Array.mem_map.mp hmem
      obtain ⟨⟨d, hd, hde⟩, -⟩ := hes e he
      exact ⟨d.1, .key hx hp (Array.mem_map_of_mem hd), hde⟩
  | value _ ho hmem ih =>
    obtain ⟨x, hx, hxy⟩ := ih
    obtain ⟨_, hp, hq⟩ := hmirrors hxy ho
    cases hq with
    | hash hes =>
      obtain ⟨e, he, rfl⟩ := Array.mem_map.mp hmem
      obtain ⟨-, d, hd, hde⟩ := hes e he
      exact ⟨d.2, .value hx hp (Array.mem_map_of_mem hd), hde⟩
  | cause _ ho hcause ih =>
    obtain ⟨x, hx, hxy⟩ := ih
    obtain ⟨_, hp, hq⟩ := hmirrors hxy ho
    cases hq with
    | @error d _ _ _ hrel =>
      rw [hcause] at hrel
      cases hd : d.cause <;> rw [hd] at hrel <;> cases hrel
      case some z hzr => exact ⟨z, .cause hx hp hd, hzr⟩
  | receiver _ ho hreceiver ih =>
    obtain ⟨x, hx, hxy⟩ := ih
    obtain ⟨_, hp, hq⟩ := hmirrors hxy ho
    cases hq with
    | @method m _ _ _ hrel =>
      rw [hreceiver] at hrel
      cases hm : m.receiver <;> rw [hm] at hrel <;> cases hrel
      case some z hzr => exact ⟨z, .receiver hx hp hm, hzr⟩
  | captured _ ho hbody hb hvar ih =>
    obtain ⟨x, hx, hxy⟩ := ih
    obtain ⟨_, hp, hq⟩ := hmirrors hxy ho
    cases hq with
    | @method m _ _ hq _ =>
      rw [hbody] at hq
      cases hm : m.body <;> rw [hm] at hq <;> cases hq
      case closure hvars =>
        obtain ⟨d, hd, -, hdb⟩ := hvars _ hb
        obtain ⟨_, hdp, hq⟩ := hmirrors hdb hvar
        cases hq with
        | @var z _ hrel =>
          cases z <;> cases hrel
          case some z hzr => exact ⟨z, .captured hx hp hm hd hdp, hzr⟩

end Heap

/-! ### Classes of copies -/

/-- The singletons of a new task are in their places. -/
theorem Vm.boot_furnished (registry : Registry) (config : Config) (heap : Nat) (task : TaskId) :
    (boot registry config heap task).heap.Furnished := by
  have hbare : (Heap.boot heap config).Furnished := by
    refine ⟨(Heap.boot_sound heap config).freeList, ?_, fun b => ?_⟩
    · rw [Heap.boot_id]
      exact Heap.get_boot_nil
    · rw [Heap.boot_id]
      exact Heap.get_boot_bool b
  exact hbare.evolves (A := fun _ => True) (boot_proceeds registry config heap task).heap

/-- They stay there in every run, until the system comes to its end. -/
theorem Session.furnished {registry : Registry} {config : Config} {heap : Nat} {task : TaskId}
    {s : Session} (hs : (boot registry config heap task).Reaches s) (hopen : s.Open) :
    s.vm.heap.Furnished := by
  induction hs with
  | refl => exact Vm.boot_furnished registry config heap task
  | @tail s t hs hst ih =>
    have hh := ih hst.open_left
    have hlive := (boot_live registry config heap task).reaches hs
    have hkeeps := hst.keeps hlive hopen
    have hsound := (hlive.step hst).vm_live.heap
    have hkept : ∀ {r o}, r ∈ Heap.permanentRoots t.vm.heap.id → s.vm.heap.get r = .ok o →
        o.payload.Fixed → t.vm.heap.get r = .ok o := by
      intro r o hr ho hfixed
      obtain ⟨p, hp, heq⟩ := hkeeps.classes r o ho (hsound.permanent_live hr)
      rwa [heq hfixed] at hp
    refine ⟨hsound.freeList, hkept ?_ ?_ trivial, fun b => hkept ?_ ?_ trivial⟩
    · simp [Heap.permanentRoots]
    · rw [hkeeps.heap]
      exact hh.nil
    · cases b <;> simp [Heap.permanentRoots]
    · rw [hkeeps.heap]
      exact hh.bool b

namespace Vm

/-- A copy of a value that may be sent has the class of the original exactly where that is the
built-in class of its kind, and this at every level. The value has no instance of a class below
`Object` among its parts, but it may have instances of classes below the other built-in ones: a copy
of such an instance is an instance of the built-in class. -/
theorem copy_classes (vm : Vm) (v : Ref) (p : Packed) (hh : vm.heap.Furnished)
    (hpack : vm.heap.pack v = .ok p) :
    (∀ x, vm.heap.Part v x →
      ∃ o k, vm.heap.get x = .ok o ∧ Builtin.ofPayload? o.payload = some k) ∧
    ∀ w vm', unpack p vm = .ok w vm' → ∃ C : Ref → Ref → Prop, C v w ∧
      (∀ y, vm'.heap.Part w y → ∃ x, vm.heap.Part v x ∧ C x y) ∧
      ∀ x y, C x y → ∃ o k q, vm.heap.get x = .ok o ∧ Builtin.ofPayload? o.payload = some k ∧
        o.payload.Mirrors C q ∧ fresh vm vm' y ⟨k.ref vm.heap.id, q⟩ ∧
        (vm'.heap.classOf y = vm.heap.classOf x ↔ o.cls = k.ref vm.heap.id) := by
  have ht := Heap.packWithin_eq_ok.mp hpack
  refine ⟨fun x hx => ?_, fun w vm' hrun => ?_⟩
  · obtain ⟨n, q, hq⟩ := Heap.tree_of_part ht hx
    exact Heap.kind_of_tree hq
  · have hvw := unpack_copied ht hh rfl hrun
    have hC := Heap.Copied.copying (h := vm.heap) (V := fresh vm vm')
    refine ⟨_, hvw, fun y => hC.part (fun _ _ => And.left) hvw, fun x y hxy => ?_⟩
    obtain ⟨o, k, q, ho, hk, hq, hy⟩ := hC x y hxy
    refine ⟨o, k, q, ho, hk, hq, hy, ?_⟩
    have hyx : vm'.heap.classOf y = .ok (k.ref vm.heap.id) := by
      rw [Heap.classOf, hy.1]
    have hx : vm.heap.classOf x = .ok o.cls := by
      rw [Heap.classOf, ho]
    rw [hyx, hx, Except.ok.injEq]
    exact eq_comm

/-- A class below `Array` is made, and an instance of it, which can be packed and unpacked. -/
def copiesRow (vm : Vm) : Bool :=
  match classNew "Row" (some (Builtin.array.ref 0)) 0 vm with
  | .ok row vm₁ =>
    match construct row [boolRef 0 true, nilRef 0] vm₁ with
    | .ok (.value v) vm₂ =>
      match vm₂.heap.get v, vm₂.heap.cls row, vm₂.heap.pack v with
      | .ok ⟨k, .array _⟩, .ok c, .ok p =>
        match unpack p vm₂ with
        | .ok _ _ => decide (k = row ∧ c.super = some (Builtin.array.ref vm₂.heap.id) ∧
            row ≠ Builtin.array.ref vm₂.heap.id)
        | _ => false
      | _, _, _ => false
    | _ => false
  | _ => false

/-- An instance of a class below `Array` is copied to an array. -/
theorem copy_classes_below_array : ∃ (vm vm' : Vm) (row v w : Ref) (c : Class) (p : Packed),
    vm.heap.Furnished ∧ vm.heap.cls row = .ok c ∧ c.super = some (Builtin.array.ref vm.heap.id) ∧
      vm.heap.classOf v = .ok row ∧ vm.heap.pack v = .ok p ∧ unpack p vm = .ok w vm' ∧
      vm'.heap.classOf w = .ok (Builtin.array.ref vm.heap.id) ∧
      vm'.heap.classOf w ≠ vm.heap.classOf v := by
  let vm₀ := boot {} {} 0 ⟨0, 0⟩
  have hrun : vm₀.copiesRow = true := by decide +kernel
  unfold copiesRow at hrun
  split at hrun <;> try cases hrun
  rename_i row vm₁ h₁
  split at hrun <;> try cases hrun
  rename_i v vm h₂
  split at hrun <;> try cases hrun
  rename_i k items c p hv hc hp
  split at hrun <;> try cases hrun
  rename_i w vm' h₃
  obtain ⟨rfl, hsuper, hne⟩ := of_decide_eq_true hrun
  have hh := (adds_run (adds_run (boot_furnished {} {} 0 ⟨0, 0⟩) h₁).2 h₂).2
  obtain ⟨-, hcopy⟩ := copy_classes vm v p hh hp
  obtain ⟨C, hvw, -, hC⟩ := hcopy w vm' h₃
  obtain ⟨o, b, q, ho, hb, -, hw, hsame⟩ := hC v w hvw
  rw [hv] at ho
  cases ho
  cases hb
  have hcv : vm.heap.classOf v = .ok k := by rw [Heap.classOf, hv]
  have hcw : vm'.heap.classOf w = .ok (Builtin.array.ref vm.heap.id) := by rw [Heap.classOf, hw.1]
  exact ⟨vm, vm', k, v, w, c, p, hh, hc, hsuper, hcv, hp, h₃, hcw, fun heq => hne (hsame.mp heq)⟩

end Vm
end ObjectMachine
