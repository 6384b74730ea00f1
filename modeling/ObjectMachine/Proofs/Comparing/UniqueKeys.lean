import ObjectMachine.Proofs.Comparing.Keeping

/-!
# ObjectMachine.Proofs.Comparing.UniqueKeys

Entries of hashes stay unique, as long as what their keys consist of stays as it is.

A key is compared with the others when it is put in a hash, and never again. Arrays and hashes can
be keys, and they can be changed afterwards, so two keys can become equal; then the second entry is
out of reach.

* `Operation.keepsUnequal`, `Session.StepBy.keepsUnequal` — operations of the embedding program and
  steps of sessions.
* `Session.Spares` — a step that changes nothing of what the keys of a hash consist of.
* `Session.keys_stay_unequal` — runs of such steps.
* `Session.keys_become_equal` — a run with another step.
-/

namespace ObjectMachine

open ObjectMachine.Action

/-! ## Operations of the embedding program -/

namespace LeavingTables

variable {α : Type}

instance reads (a : Action α) [Reads a] : Obeys LeavingTables a :=
  ⟨fun vm hf => by
    rw [Reads.state]
    exact .refl hf⟩

instance zero (a : Action (List Ref)) [Obeys LeavingTables a] (operands : List Ref) :
    Obeys LeavingTables (Operands.zero a operands) := by
  unfold Operands.zero
  split <;> infer_instance

instance one (f : Ref → Action (List Ref)) [∀ x, Obeys LeavingTables (f x)]
    (operands : List Ref) : Obeys LeavingTables (Operands.one f operands) := by
  unfold Operands.one
  split <;> infer_instance

instance option (f : Option Ref → Action (List Ref)) [∀ x, Obeys LeavingTables (f x)]
    (operands : List Ref) : Obeys LeavingTables (Operands.option f operands) := by
  unfold Operands.option
  split <;> infer_instance

instance two (f : Ref → Ref → Action (List Ref)) [∀ x y, Obeys LeavingTables (f x y)]
    (operands : List Ref) : Obeys LeavingTables (Operands.two f operands) := by
  unfold Operands.two
  split <;> infer_instance

instance first (f : Ref → List Ref → Action (List Ref)) [∀ x xs, Obeys LeavingTables (f x xs)]
    (operands : List Ref) : Obeys LeavingTables (Operands.first f operands) := by
  unfold Operands.first
  split <;> infer_instance

instance single (a : Action Ref) [Obeys LeavingTables a] :
    Obeys LeavingTables (Operands.single a) := by
  unfold Operands.single; infer_instance

instance silent (a : Action α) [Obeys LeavingTables a] :
    Obeys LeavingTables (Operands.silent a) := by
  unfold Operands.silent; infer_instance

instance contentsOf (r : Ref) : Obeys LeavingTables (Operation.contentsOf r) := by
  unfold Operation.contentsOf; infer_instance

instance methodNamed (cls : Ref) (name : String) :
    Obeys LeavingTables (Operation.methodNamed cls name) := by
  unfold Operation.methodNamed; infer_instance

instance named (table : Vm → NameMap Ref) (name : String) :
    Obeys LeavingTables (Operation.named table name) := by
  unfold Operation.named; infer_instance

instance takeOutput : Obeys LeavingTables Vm.takeOutput :=
  ⟨fun _ hf => .refl hf⟩

/-- An operation that neither puts an entry in a hash nor rebuilds one. -/
theorem operation {c : Operation} (hset : c ≠ .setEntry) (hunpack : ∀ p, c ≠ .unpack p)
    (operands : List Ref) : Obeys LeavingTables (c.run operands) := by
  cases c with
  | setEntry => exact absurd rfl hset
  | unpack p => exact absurd rfl (hunpack p)
  | _ =>
    unfold Operation.run
    infer_instance

end LeavingTables

section

variable {vm : Vm}

theorem Operation.keepsUnequal (hlive : vm.Live) (hf : vm.heap.Furnished) (hc : vm.heap.Classed)
    (c : Operation) {operands : List Ref} (hrefs : ∀ r ∈ operands, vm.heap.contains r = true) :
    vm.heap.KeepsUnequal (final (c.run operands vm)).heap := by
  -- an action, and then an answer
  have hanswer : ∀ {α : Type} {a : Action α} {f : α → List Ref},
      vm.heap.KeepsUnequal (final (a vm)).heap →
        vm.heap.KeepsUnequal (final ((do return f (← a)) vm)).heap := by
    intro α a f hend
    refine final_bind (P := fun w => vm.heap.KeepsUnequal w.heap) hend fun x w hrun => ?_
    rw [hrun] at hend
    exact hend
  by_cases hset : c = .setEntry
  · subst hset
    rcases operands with _ | ⟨hash, _ | ⟨key, _ | ⟨value, _ | ⟨other, rest⟩⟩⟩⟩
    case cons.cons.cons.nil =>
      exact hanswer (Vm.hashSet_keepsUnequal hlive.heap hc hash value (hrefs key (by simp)))
    all_goals exact .refl
  by_cases hunpack : ∃ p, c = .unpack p
  · obtain ⟨p, rfl⟩ := hunpack
    cases operands with
    | nil => exact hanswer (f := fun x => [x]) (Vm.unpack_keepsUnequal hlive hf hc p)
    | cons r rest => exact .refl
  · have := LeavingTables.operation hset (fun p hp => hunpack ⟨p, hp⟩) operands
    exact Vm.keepsUnequal_of_obeys _ hlive.heap hc

end

/-! ## Steps of sessions -/

namespace Session

theorem begin_keepsUnequal {vm : Vm} (hlive : vm.Live) (hc : vm.heap.Classed) (entry : Entry) :
    vm.heap.KeepsUnequal (ofOutcome (entry.begin vm)).vm.heap := by
  cases entry with
  | bytecode method args => exact continueWith_leaves hlive hc fun _ vm => .refl vm
  | _ => exact .refl

/-- A step, unless an object is made by hand. -/
theorem StepBy.keepsUnequal {accepts : Vm → Operation → List Ref → Prop} {s t : Session}
    (hlive : s.Live) (hf : s.vm.heap.Furnished) (hc : s.vm.heap.Classed)
    (hst : s.StepBy (fun _ _ => False) accepts t) : s.vm.heap.KeepsUnequal t.vm.heap := by
  have hc' := hst.classed hlive hc
  have hvm := hlive.vm_live
  cases hst with
  | operation c hrefs _ =>
    rw [ofResult_vm]
    exact c.keepsUnequal hvm hf hc hrefs
  | alloc _ hp => exact hp.elim
  | roots _ =>
    refine .of_before rfl hc.builtinOrder hc'.builtinOrder fun r u hu hold => .inr ⟨hold u hu, ?_⟩
    intro k hk
    exact hvm.heap.closed.refs_live hu (HashTable.key_mem_refs (Array.mem_toList_iff.mpr hk))
  | collect =>
    rw [ofResult_vm]
    exact Vm.collect_keepsUnequal hvm hc
  | begin entry _ => exact begin_keepsUnequal hvm hc entry
  | active hst => exact hst.active_keepsUnequal hlive hf hc

end Session

/-! ## Runs -/

namespace Heap

variable {h h' : Heap}

/-- Where there was no hash with entries there is none. -/
theorem LeavesTables.noEntries (hl : h.LeavesTables h')
    (hnone : ∀ r t, h.payload r = .ok (.hash t) → t = {}) :
    ∀ r t, h'.payload r = .ok (.hash t) → t = {} := by
  intro r t ht
  cases hr : h.contains r with
  | true => exact hnone r t (hl.old r t hr ht)
  | false => exact hl.new r t hr ht

/-- A hash is indexed as a hash, since its class is of the family of its kind. -/
theorem Classed.indexed (hh : h.Classed) {r : Ref} {t : HashTable}
    (ht : h.payload r = .ok (.hash t)) : h.Indexed r := by
  obtain ⟨k, hr⟩ := payload_eq_ok_iff.mp ht
  exact ⟨k, classOf_eq hr, (hh.objects r _ hr).findSlot hh fun _ => rfl⟩

end Heap

namespace Vm

/-- A new task has no hash. -/
theorem boot_noEntries (registry : Registry) (config : Config) (heap : Nat) (task : TaskId) :
    ∀ r t, (boot registry config heap task).heap.payload r = .ok (.hash t) → t = {} := by
  have hplace : ∀ {vm : Vm} {name f}, (Heap.boot heap config).LeavesTables vm.heap →
      (Heap.boot heap config).LeavesTables
        (vm.heap.placeBuiltin .method (.method { name := name, body := .native f })).2 :=
    fun hl => hl.trans (.place hl.freeList (by rintro _ ⟨⟩))
  have hleaves : (Heap.boot heap config).LeavesTables
      (boot registry config heap task).heap := by
    refine boot_induction (P := fun vm => (Heap.boot heap config).LeavesTables vm.heap)
      (.refl (Heap.boot_sound heap config).freeList) (fun vm k name f hl => ?_)
      (fun vm name f hl => hplace hl) fun vm log hl => hl
    refine (hplace hl).trans (.update (hplace hl).freeList (fun p hp => ?_) _)
    cases p <;> first | rfl | exact (hp.elim id id).elim
  refine hleaves.noEntries fun r t ht => ?_
  obtain ⟨k, hr⟩ := Heap.payload_eq_ok_iff.mp ht
  rcases Heap.boot_cases hr with ⟨b, -, heq⟩ | ⟨-, heq⟩ | ⟨b, -, heq⟩ <;> cases heq

end Vm

namespace Session

/-- The step changes nothing of what the keys consist of that the hash `r` has after it. -/
def Spares (r : Ref) (s t : Session) : Prop :=
  ∀ u, t.vm.heap.payload r = .ok (.hash u) →
    ∀ k ∈ u.keys, s.vm.heap.contains k = true → s.vm.heap.Intact t.vm.heap k

/-- Putting an entry in a hash is such a step, if none of the keys reaches the hash. -/
theorem Spares.setEntry {vm : Vm} (hlive : vm.Live) {r key value : Ref}
    (hkeys : ∀ u, (ofResult (Operation.setEntry.run [r, key, value] vm)).vm.heap.payload r =
      .ok (.hash u) → ∀ k ∈ u.keys, ¬ vm.heap.Spans Payload.parts k r) :
    (idle vm).Spares r (ofResult (Operation.setEntry.run [r, key, value] vm)) := by
  intro u hu k hk hthere x hx
  obtain ⟨p, hp⟩ := Heap.Sound.payload (hlive.heap.closed.spans_live hthere hx)
  have hne : x ≠ r := by
    rintro rfl
    exact hkeys u hu k hk hx
  have hend : (ofResult (Operation.setEntry.run [r, key, value] vm)).vm =
      final (Vm.hashSet r key value vm) := by
    rw [ofResult_vm]
    show final ((Vm.hashSet r key value >>= fun _ => pure []) vm) = _
    rw [bind_run]
    cases Vm.hashSet r key value vm <;> rfl
  rw [hend]
  exact ⟨p, hp, ((Vm.hashSet_differsAt vm r key value).payload x hne).trans hp⟩

/-- A run, all of whose steps do so. The embedding program makes no object by hand. -/
def RunsSparing (r : Ref) : Session → Session → Prop :=
  Relation.ReflTransGen fun s t =>
    s.StepBy (fun _ _ => False) (fun _ _ _ => True) t ∧ s.Spares r t

theorem RunsSparing.reaches {r : Ref} {s t : Session} (h : s.RunsSparing r t) :
    s.ReachesBy (fun _ _ => False) (fun _ _ _ => True) t :=
  Relation.ReflTransGen.mono (fun _ _ h => h.1) _ _ h

/-- As long as nothing changes of what its keys consist of, the keys of a hash are not equal, and
indexing with a key gives the value of its own entry. That an earlier key does not equal a later one
says the same of the later and the earlier one, if the numbers in them are ordered alike in both
directions. -/
theorem keys_stay_unequal {registry : Registry} {config : Config} {heap : Nat} {task : TaskId}
    {r : Ref} {s : Session} (hs : (boot registry config heap task).RunsSparing r s)
    {t : HashTable} (ht : s.vm.heap.payload r = .ok (.hash t)) :
    s.vm.heap.KeysUnequal t ∧
      (∀ (i : Nat) (k x : Ref), t.entries[i]? = some (k, x) →
        Vm.getItem r k s.vm = .ok x s.vm) ∧
      (s.vm.heap.NumbersAgree t → ∀ (i j : Nat) (k l : Ref), i ≠ j → t.keys[i]? = some k →
        t.keys[j]? = some l → s.vm.heap.equals k l = .ok false) := by
  have hunequal : ∀ t, s.vm.heap.payload r = .ok (.hash t) → s.vm.heap.KeysUnequal t := by
    clear t ht
    induction hs with
    | refl =>
      intro t ht
      obtain rfl := Vm.boot_noEntries registry config heap task r t ht
      exact .empty
    | @tail s s' hs hst ih =>
      obtain ⟨hst, hspares⟩ := hst
      have hreach := RunsSparing.reaches hs
      obtain ⟨horderly, hclassed⟩ := classed hreach
      have hfurnished := furnished hreach.reaches hst.step.open_left
      intro t ht
      exact hst.keepsUnequal horderly.live hfurnished hclassed r t ht ih (hspares t ht)
  obtain ⟨horderly, hclassed⟩ := classed (RunsSparing.reaches hs)
  have hsound := horderly.live.vm_live.heap
  refine ⟨hunequal t ht, fun i k x he => ?_, fun hnumbers i j k l hij hk hl => ?_⟩
  · have hkey : t.keys[i]? = some k := by
      rw [HashTable.keys, Array.getElem?_map, he]
      rfl
    exact Vm.getItem_found (hclassed.indexed ht) ht ((hunequal t ht).firstAt hkey) he
  · have hkeys : ∀ k ∈ t.keys, s.vm.heap.contains k = true := fun k hk =>
      hsound.closed.refs_live ht (HashTable.key_mem_refs (Array.mem_toList_iff.mpr hk))
    exact (hunequal t ht).bothWays hsound hclassed.builtinOrder hkeys hnumbers hij hk hl

end Session

namespace Heap

variable {h : Heap} {r v x : Ref} {rs : List Ref} {es : Array (Ref × Ref)}

/-- Whether an object is a hash with these entries. -/
def holdsEntries (h : Heap) (r : Ref) (es : Array (Ref × Ref)) : Bool :=
  match h.payload r with
  | .ok (.hash t) => t.entries == es
  | _ => false

theorem holdsEntries_payload (hr : h.holdsEntries r es = true) :
    h.payload r = .ok (.hash ⟨es⟩) := by
  unfold holdsEntries at hr
  split at hr
  case h_1 t ht =>
    obtain rfl := beq_iff_eq.mp hr
    exact ht
  case h_2 => cases hr

/-- Whether some objects have no other parts than each other, and none of them is a number. -/
def enclosed (h : Heap) (rs : List Ref) : Bool :=
  rs.all fun r => okAnd (h.payload r) fun p => p.number?.isNone && p.parts.all rs.contains

theorem enclosed_spans (hrs : h.enclosed rs = true) (hv : v ∈ rs)
    (hs : h.Spans Payload.parts v x) : x ∈ rs ∧ ∀ z, h.payload x ≠ .ok (.float z) := by
  have hmember : ∀ {r}, r ∈ rs → ∃ p, h.payload r = .ok p ∧ p.number? = none ∧
      ∀ y ∈ p.parts, y ∈ rs := by
    intro r hr
    have hr := List.all_eq_true.mp hrs r hr
    simpa only [okAnd_eq_true, Bool.and_eq_true, Option.isNone_iff_eq_none, List.all_eq_true,
      List.contains_iff_mem] using hr
  have hx : x ∈ rs := by
    induction hs with
    | self => exact hv
    | next _ hp hy ih =>
      obtain ⟨q, hq, -, hparts⟩ := hmember ih
      rw [hp] at hq
      cases hq
      exact hparts _ hy
  refine ⟨hx, fun z hz => ?_⟩
  obtain ⟨p, hp, hnumber, -⟩ := hmember hx
  rw [hz] at hp
  cases hp
  cases hnumber

end Heap

namespace Session

theorem idle?_eq_some {s : Session} {vm : Vm} (h : s.idle? = some vm) : s = .idle vm := by
  cases s <;> cases h
  rfl

/-- A hash with two keys, an empty array and an array with nil in it. -/
def twoArrays : Packed :=
  .hash [(.array [], .bool true), (.array [.nil], .bool false)]

/-- Its entries, after it was rebuilt in a new task. -/
def twoEntries : Array (Ref × Ref) :=
  #[(⟨0, 44, 0⟩, boolRef 0 true), (⟨0, 45, 0⟩, boolRef 0 false)]

/-- What the two keys, and true as a third one, consist of. -/
def keyParts : List Ref :=
  [⟨0, 44, 0⟩, ⟨0, 45, 0⟩, boolRef 0 true, nilRef 0]

/-- True becomes a third key. -/
def addThird : Action (List Ref) :=
  Operation.setEntry.run [⟨0, 43, 0⟩, boolRef 0 true, nilRef 0]

/-- The hash is rebuilt from a tree and gets a third key. -/
theorem keys_stay_unequal_three :
    ∃ s t, (boot {} {} 0 ⟨0, 0⟩).RunsSparing ⟨0, 43, 0⟩ s ∧
      s.vm.heap.payload ⟨0, 43, 0⟩ = .ok (.hash t) ∧
      t.entries = twoEntries.push (boolRef 0 true, nilRef 0) ∧ s.vm.heap.KeysUnequal t ∧
      Vm.getItem ⟨0, 43, 0⟩ ⟨0, 45, 0⟩ s.vm = .ok (boolRef 0 false) s.vm ∧
      s.vm.heap.equals (boolRef 0 true) ⟨0, 44, 0⟩ = .ok false := by
  have hrun : (idle? (.ofResult ((Operation.unpack twoArrays).run []
      (Vm.boot {} {} 0 ⟨0, 0⟩)))).any (fun vm =>
        vm.heap.holdsEntries ⟨0, 43, 0⟩ twoEntries && vm.heap.enclosed keyParts &&
        [⟨0, 43, 0⟩, boolRef 0 true, nilRef 0].all vm.heap.contains &&
        (ofResult (addThird vm)).vm.heap.holdsEntries ⟨0, 43, 0⟩
          (twoEntries.push (boolRef 0 true, nilRef 0)) &&
        (ofResult (addThird vm)).vm.heap.enclosed keyParts) = true := by
    decide +kernel
  obtain ⟨vm, hidle, hrun⟩ := (Option.any_eq_true _ _).mp hrun
  simp only [Bool.and_eq_true, List.all_eq_true] at hrun
  obtain ⟨⟨⟨⟨hfirst, hparts⟩, hrefs⟩, hsecond⟩, hparts'⟩ := hrun
  have hfirst := Heap.holdsEntries_payload hfirst
  have hsecond := Heap.holdsEntries_payload hsecond
  have hkeys : ∀ k ∈ (HashTable.mk (twoEntries.push (boolRef 0 true, nilRef 0))).keys,
      k ∈ keyParts := by
    intro k hk
    have hall : ∀ k ∈ (HashTable.mk (twoEntries.push (boolRef 0 true, nilRef 0))).keys.toList,
        k ∈ keyParts := by decide +kernel
    exact hall k (Array.mem_toList_iff.mpr hk)
  have hunpack :
      (boot {} {} 0 ⟨0, 0⟩).StepBy (fun _ _ => False) (fun _ _ _ => True) (.idle vm) := by
    rw [← idle?_eq_some hidle]
    refine .operation (.unpack twoArrays) ?_ trivial
    simp
  have hlive : vm.Live := (boot_live {} {} 0 ⟨0, 0⟩).step hunpack.step
  -- the first two keys are not there before the first step
  have hspares : (boot {} {} 0 ⟨0, 0⟩).Spares ⟨0, 43, 0⟩ (.idle vm) := by
    intro u hu k hk hthere
    obtain rfl := Payload.hash.inj (Except.ok.inj (hfirst.symm.trans hu))
    have hnew : ∀ k ∈ (HashTable.mk twoEntries).keys.toList,
        (boot {} {} 0 ⟨0, 0⟩).vm.heap.contains k = false := by decide +kernel
    rw [hnew k (Array.mem_toList_iff.mpr hk)] at hthere
    cases hthere
  have hspares' : (idle vm).Spares ⟨0, 43, 0⟩ (ofResult (addThird vm)) := by
    refine .setEntry hlive fun u hu k hk hspan => ?_
    obtain rfl := Payload.hash.inj (Except.ok.inj (hsecond.symm.trans hu))
    exact absurd (Heap.enclosed_spans hparts (hkeys k hk) hspan).1 (by decide)
  have hreach : (boot {} {} 0 ⟨0, 0⟩).RunsSparing ⟨0, 43, 0⟩ (ofResult (addThird vm)) :=
    (Relation.ReflTransGen.single ⟨hunpack, hspares⟩).tail
      ⟨.operation .setEntry hrefs trivial, hspares'⟩
  obtain ⟨hunequal, hitems, hboth⟩ := keys_stay_unequal hreach hsecond
  refine ⟨_, _, hreach, hsecond, rfl, hunequal, hitems 1 _ _ rfl,
    hboth (.of_noFloats fun k hk x z hx => ?_) 2 0 _ _ (by decide)
      (by decide +kernel) (by decide +kernel)⟩
  exact (Heap.enclosed_spans hparts' (hkeys k hk) hx).2 z

/-- An empty array and an array with nil in it become keys of a hash. Then nil is pushed on the
first one. -/
def pushOnKey : List Deed :=
  [.operate .array [], .operate .array [nilRef 0], .operate .hash [],
    .operate (.getAttr "set") [⟨0, 45, 0⟩],
    .call (.call ⟨0, 46, 0⟩ [⟨0, 43, 0⟩, boolRef 0 true]), .step, .step,
    .call (.call ⟨0, 46, 0⟩ [⟨0, 44, 0⟩, boolRef 0 false]), .step, .step,
    .operate (.getAttr "push") [⟨0, 43, 0⟩], .call (.call ⟨0, 47, 0⟩ [nilRef 0]), .step, .step]

/-- Now the keys are equal, and indexing with the second one gives the value of the first. -/
theorem keys_become_equal :
    ∃ s t, (boot {} {} 0 ⟨0, 0⟩).ReachesBy (fun _ _ => False) (fun _ _ _ => True) s ∧
      s.vm.heap.payload ⟨0, 45, 0⟩ = .ok (.hash t) ∧
      t.entries = #[(⟨0, 43, 0⟩, boolRef 0 true), (⟨0, 44, 0⟩, boolRef 0 false)] ∧
      s.vm.heap.equals ⟨0, 43, 0⟩ ⟨0, 44, 0⟩ = .ok true ∧
      Vm.getItem ⟨0, 45, 0⟩ ⟨0, 44, 0⟩ s.vm = .ok (boolRef 0 true) s.vm := by
  have hrun : (follow? pushOnKey (boot {} {} 0 ⟨0, 0⟩)).any (fun s =>
      s.vm.heap.holdsEntries ⟨0, 45, 0⟩
        #[(⟨0, 43, 0⟩, boolRef 0 true), (⟨0, 44, 0⟩, boolRef 0 false)] &&
      okAnd (s.vm.heap.equals ⟨0, 43, 0⟩ ⟨0, 44, 0⟩) id) = true := by decide +kernel
  obtain ⟨s, hs, hrun⟩ := (Option.any_eq_true _ _).mp hrun
  simp only [Bool.and_eq_true, okAnd_eq_true, id] at hrun
  obtain ⟨hentries, b, hequal, rfl⟩ := hrun
  have hreach : (boot {} {} 0 ⟨0, 0⟩).ReachesBy (fun _ _ => False) (fun _ _ _ => True) s :=
    follow?_reaches (fun _ _ _ _ => trivial) hs
  have ht := Heap.holdsEntries_payload hentries
  refine ⟨s, _, hreach, ht, rfl, hequal, ?_⟩
  refine Vm.getItem_found (i := 0) ((classed hreach).2.indexed ht) ht ?_ rfl
  simpa [HashTable.keys, Heap.firstAt_zero] using hequal

end Session
end ObjectMachine
