import ObjectMachine.Proofs.Comparing.Filling
import ObjectMachine.Proofs.Machine.Depth
import ObjectMachine.Proofs.Scopes.Parameters

/-!
# ObjectMachine.Proofs.Comparing.Keeping

What a task does keeps the keys of hashes unequal.

Three things put entries in hashes: the native function that sets one, the instruction that makes a
hash, and rebuilding from a tree. All others leave the tables as they are, and so do collections
with the hashes that are left.

* `Vm.Swept.keepsUnequal` — collections.
* `Vm.hashSet_keepsUnequal`, `Vm.makeHash_keepsUnequal`, `Vm.unpack_keepsUnequal` — what puts
  entries in hashes.
* `Vm.performIn_keepsUnequal`, `Vm.call_keepsUnequal` — instructions and calls.
* `Machine.step_keepsUnequal`, `Session.Step.active_keepsUnequal` — steps of calls.
-/

namespace ObjectMachine

open ObjectMachine.Action

namespace Heap

variable {h h' h'' : Heap} {v : Ref}

theorem KeepsUnequal.refl : h.KeepsUnequal h :=
  fun _ u hu hold _ => hold u hu

theorem Closed.clear (hc : h.Closed) (hv : h.contains v = true) {old : Ref → Prop}
    (hold : ∀ r, old r → h.contains r = false) : h.Clear old v := by
  intro x hs
  have hx := hc.spans_live hv hs
  obtain ⟨o, ho⟩ := contains_iff.mp hx
  refine ⟨o.payload, payload_eq_ok_iff.mpr ⟨o.cls, ho⟩, fun hr => ?_⟩
  rw [hold x hr] at hx
  cases hx

end Heap

namespace Vm

variable {v u w : Vm}

/-! ## Collections -/

/-- What is left after a collection is as it was. -/
theorem Swept.intact (hs : v.Swept u) {k : Ref} (hk : u.heap.contains k = true) :
    v.heap.Intact u.heap k := by
  have hlive : ∀ {x}, v.heap.Spans Payload.parts k x → u.heap.contains x = true := by
    intro x hx
    induction hx with
    | self => exact hk
    | next _ hp hy ih =>
      exact hs.sound.closed.spans_live ih (.next .self (hs.remains.payload hp ih) hy)
  intro x hx
  obtain ⟨o, ho⟩ := Heap.contains_iff.mp (hlive hx)
  have hp := Heap.payload_eq_ok_iff.mpr ⟨o.cls, ho⟩
  exact ⟨o.payload, hs.payload_back hp, hp⟩

/-- What becomes of unequal keys after a collection becomes of them all the same. -/
theorem Swept.keepsUnequal (hs : v.Swept u) (hc : v.heap.Classed)
    (hw : u.heap.KeepsUnequal w.heap) : v.heap.KeepsUnequal w.heap := by
  have hback : ∀ {k}, u.heap.contains k = true → v.heap.contains k = true := by
    intro k hk
    obtain ⟨o, ho⟩ := Heap.contains_iff.mp hk
    exact Heap.contains_of_get (hs.remains.get k o ho)
  intro r t ht hold hintact
  refine hw r t ht (fun t' ht' => ?_) fun k hkey hk => ?_
  · refine (hold t' (hs.payload_back ht')).intact hs.remains.nesting hc.builtinOrder
      (hs.classed hc).builtinOrder fun k hkey => hs.intact ?_
    exact hs.sound.closed.refs_live ht' (HashTable.key_mem_refs (Array.mem_toList_iff.mpr hkey))
  · exact (hs.intact hk).later (hintact k hkey (hback hk))

/-- The singletons are still there after a collection. -/
theorem Swept.furnished (hs : v.Swept u) (hf : v.heap.Furnished) : u.heap.Furnished := by
  have hget : ∀ {r o}, r ∈ Heap.permanentRoots u.heap.id → v.heap.get r = .ok o →
      u.heap.get r = .ok o := by
    intro r o hr ho
    obtain ⟨o', ho'⟩ := Heap.contains_iff.mp (hs.sound.permanent_live hr)
    rw [ho', ← hs.remains.get r o' ho', ho]
  refine ⟨hs.sound.freeList, hget ?_ ?_, fun b => hget ?_ ?_⟩
  · simp [Heap.permanentRoots]
  · rw [hs.remains.id]
    exact hf.nil
  · cases b <;> simp [Heap.permanentRoots]
  · rw [hs.remains.id]
    exact hf.bool b

theorem collect_keepsUnequal (hlive : v.Live) (hc : v.heap.Classed) :
    v.heap.KeepsUnequal (final (collect v)).heap := by
  obtain ⟨n, u, hrun, hswept⟩ := collect_swept hlive.heap hlive.roots
  rw [hrun]
  exact hswept.keepsUnequal hc .refl

/-! ## Actions -/

/-- What gives no hash another table. -/
theorem keepsUnequal_of_obeys {α : Type} (a : Action α) [ho : Obeys LeavingTables a] [Fitting a]
    (hs : v.heap.Sound) (hc : v.heap.Classed) : v.heap.KeepsUnequal (final (a v)).heap := by
  have hc' : (final (a v)).heap.Classed := Fitting.classed v hc
  exact (ho.holds v hs.freeList).keepsUnequal hs.closed hc.builtinOrder hc'.builtinOrder

/-- An entry whose key equals no other one is added, or none. -/
theorem hashSet_keepsUnequal (hs : v.heap.Sound) (hc : v.heap.Classed) (hash value : Ref)
    {key : Ref} (hkey : v.heap.contains key = true) :
    v.heap.KeepsUnequal (final (hashSet hash key value v)).heap := by
  have hc' : (final (hashSet hash key value v)).heap.Classed := Fitting.classed v hc
  rcases hashSet_cases v hash key value with hsame | ⟨t, u, i, ht, -, hrun, hkeys⟩
  · rw [hsame]
    exact .refl
  rw [hrun] at hc' ⊢
  show v.heap.KeepsUnequal (v.heap.refill hash u)
  have hlive : ∀ {r t}, v.heap.payload r = .ok (.hash t) →
      ∀ k ∈ t.keys, v.heap.contains k = true := fun ht k hk =>
    hs.closed.refs_live ht (HashTable.key_mem_refs (Array.mem_toList_iff.mpr hk))
  refine .of_before rfl hc.builtinOrder hc'.builtinOrder fun r w hw hold => .inr ?_
  by_cases hr : r = hash
  · subst hr
    rw [Heap.payload_refill_self ht] at hw
    cases hw
    rcases hkeys with hu | ⟨hnone, hu⟩
    · refine ⟨?_, fun k hk => hlive ht k (hu ▸ hk)⟩
      unfold Heap.KeysUnequal
      rw [hu]
      exact hold t ht
    · refine ⟨(hold t ht).append hnone hu, fun k hk => ?_⟩
      rw [← Array.mem_toList_iff, hu, List.mem_append, List.mem_singleton] at hk
      rcases hk with hk | rfl
      · exact hlive ht k (Array.mem_toList_iff.mp hk)
      · exact hkey
  · rw [Heap.payload_refill_ne (Heap.contains_of_payload ht) hr] at hw
    exact ⟨hold w hw, hlive hw⟩

/-- Rebuilding makes new hashes only. -/
theorem unpack_keepsUnequal (hlive : v.Live) (hf : v.heap.Furnished) (hc : v.heap.Classed)
    (p : Packed) : v.heap.KeepsUnequal (final (unpack p v)).heap :=
  ((unpack_brings p).grows v hf hc).keepsUnequal hc hlive.heap.closed

theorem replace_heap (n : Nat) (r : Ref) (v : Vm) : (final (replace n r v)).heap = v.heap := by
  unfold replace drop
  refine final_bind (P := fun w => w.heap = v.heap) ?_ fun _ w hrun => ?_
  · refine final_bind (P := fun w => w.heap = v.heap) ?_ fun height w hrun => ?_
    · rw [Reads.state]
    · rw [Reads.of_ok hrun]
      rfl
  · obtain ⟨height, w₁, hbelow, hshrink⟩ := bind_eq_ok.mp hrun
    rw [Reads.of_ok hbelow] at hshrink
    cases hshrink
    rfl

/-- After the work, only the stack changes. -/
theorem bind_replace_heap {a : Action Unit} (n : Nat) (r : Ref) (v : Vm) :
    (final ((a >>= fun _ => replace n r >>= fun _ => pure Flow.next) v)).heap =
      (final (a v)).heap := by
  rw [bind_run]
  cases a v with
  | error e u => rfl
  | ok _ u =>
    have hreplaced := replace_heap n r u
    refine final_bind (P := fun w => w.heap = u.heap) hreplaced fun _ w hrun => ?_
    rw [hrun] at hreplaced
    exact hreplaced

/-- The keys of the new hash were there before it, and the other hashes are as they were. -/
theorem makeHash_keepsUnequal (hclosed : v.heap.Closed) (hf : v.heap.Furnished)
    (hc : v.heap.Classed) (hstack : ∀ r ∈ v.stack.toList, v.heap.contains r = true) (i : Instr) :
    v.heap.KeepsUnequal (final (execute .makeHash i v)).heap := by
  unfold execute
  dsimp only
  refine final_bind (P := fun w => v.heap.KeepsUnequal w.heap) ?_ fun items v₁ hitems => ?_
  · rw [Reads.state]
    exact .refl
  rw [Reads.of_ok hitems]
  have hthere : ∀ y ∈ items, v.heap.contains y = true := by
    obtain ⟨-, rfl⟩ := peekMany_eq_ok hitems
    intro y hy
    refine hstack y ?_
    rw [Array.toList_extract] at hy
    exact List.mem_of_mem_drop (List.mem_of_mem_take hy)
  obtain ⟨x, w, hnew, hfresh, -, hold, hx⟩ := newHash_filling hf hc
  have hg : v.heap.Grows w.heap := (Sprouts.of_ok hf hc hnew).1
  have hkeep := hg.changesOnly hc (· = x)
  -- what the keys consist of was there before the hash
  have hclear : ∀ y ∈ items, w.heap.Clear (· = x) y := fun y hy =>
    hkeep.clear (hclosed.clear (hthere y hy) fun r hr => hr ▸ hfresh)
  have hempty : w.heap.Filling (· = x) x :=
    hx.mono (fun r hr => hr ▸ hx.isOld) rfl
  obtain ⟨hfilled, hd⟩ := fillHash_filling hempty hclear
  rw [bind_ok hnew]
  show v.heap.KeepsUnequal (final _).heap
  rw [bind_replace_heap]
  refine .of_before (hd.nesting.trans hg.nesting) hc.builtinOrder hfilled.classed.builtinOrder
    fun r u hu hkeys => ?_
  by_cases hr : r = x
  · subst hr
    obtain ⟨t, ht, hunequal⟩ := hfilled.table
    rw [hu] at ht
    cases ht
    exact .inl hunequal.unequal
  · rw [hd.payload r hr] at hu
    have hthere := (hold r (Heap.contains_of_payload hu)).resolve_left hr
    have hp := hg.payload_back hthere hu
    refine .inr ⟨hkeys u hp, fun k hk => hclosed.refs_live hp ?_⟩
    exact HashTable.key_mem_refs (Array.mem_toList_iff.mpr hk)

/-! ## Instructions -/

theorem execute_makeHash_next {i : Instr} {flow : Flow}
    (hrun : execute .makeHash i v = .ok flow w) : flow = .next := by
  unfold execute at hrun
  obtain ⟨_, _, -, hrun⟩ := bind_eq_ok.mp hrun
  obtain ⟨_, _, -, hrun⟩ := bind_eq_ok.mp hrun
  obtain ⟨_, _, -, hrun⟩ := bind_eq_ok.mp hrun
  obtain ⟨_, _, -, hrun⟩ := bind_eq_ok.mp hrun
  exact (pure_eq_ok.mp hrun).1.symm

/-- An instruction other than that one. -/
theorem performIn_leavesTables (hf : v.heap.FreeList)
    (hother : ∀ i u, fetch v = .ok (some i) u → i.op? ≠ some .makeHash) (floor : Nat) :
    v.heap.LeavesTables (final (performIn floor v)).heap := by
  have hperform : v.heap.LeavesTables (final (perform v)).heap := by
    have hfetch := (Obeys.fetch (P := LeavingTables)).holds v hf
    unfold perform
    refine final_bind (P := fun w => v.heap.LeavesTables w.heap) hfetch fun next u hrun => ?_
    rw [hrun] at hfetch
    refine hfetch.trans ?_
    have hleaves : ∀ {a : Action Flow} [Obeys LeavingTables a],
        u.heap.LeavesTables (final (a u)).heap := fun {a} [ha : Obeys LeavingTables a] =>
      ha.holds u hfetch.freeList
    cases next with
    | none => exact hleaves
    | some i =>
      dsimp only
      cases hop : i.op? with
      | none =>
        have : Obeys LeavingTables (do
            let f ← top
            Action.fatal (.invalidOpcode i.opcode f.unit.name) : Action Flow) :=
          .top_bind (fun _ => inferInstance) fun _ _ => rfl
        exact hleaves
      | some op =>
        have := Obeys.execute (P := LeavingTables) (fun heq => hother i u hrun (heq ▸ hop)) i
        exact hleaves
  unfold performIn
  refine final_bind (P := fun w => v.heap.LeavesTables w.heap) hperform fun flow u hrun => ?_
  rw [hrun] at hperform
  cases flow with
  | leave r =>
    have hreturn := Obeys.returnFrom (P := LeavingTables) floor r
    exact hperform.trans (hreturn.holds u hperform.freeList)
  | _ => exact hperform

theorem performIn_keepsUnequal (hlive : v.Live) (hf : v.heap.Furnished) (hc : v.heap.Classed)
    (floor : Nat) : v.heap.KeepsUnequal (final (performIn floor v)).heap := by
  by_cases hmake : ∃ i u, fetch v = .ok (some i) u ∧ i.op? = some .makeHash
  · obtain ⟨i, u, hfetch, hop⟩ := hmake
    obtain ⟨-, -, -, hstate, -⟩ := fetch_eq_some hfetch
    have hperform : perform v = execute .makeHash i u := by
      unfold perform
      rw [bind_ok hfetch]
      simp only [hop]
    have hend : final (performIn floor v) = final (execute .makeHash i u) := by
      unfold performIn
      rw [bind_run, hperform]
      cases hrun : execute .makeHash i u with
      | error e w => rfl
      | ok flow w =>
        obtain rfl := execute_makeHash_next hrun
        rfl
    have hheap : u.heap = v.heap := by rw [hstate]
    have hstack : u.stack = v.stack := by rw [hstate]
    rw [hend, ← hheap]
    refine makeHash_keepsUnequal (hheap ▸ hlive.heap.closed) (hheap ▸ hf) (hheap ▸ hc)
      (fun r hr => ?_) i
    rw [hheap]
    exact hlive.roots r (mem_roots_stack (hstack ▸ hr))
  · have hc' : (final (performIn floor v)).heap.Classed := Fitting.classed v hc
    have hleaves := performIn_leavesTables hf.freeList
      (fun i u hfetch hop => hmake ⟨i, u, hfetch, hop⟩) floor
    exact hleaves.keepsUnequal hlive.heap.closed hc.builtinOrder hc'.builtinOrder

/-! ## Calls -/

theorem runNative_keepsUnequal (hlive : v.Live) (hc : v.heap.Classed) (f : Native)
    {args : List Ref} (hargs : ∀ r ∈ args, v.heap.contains r = true) :
    v.heap.KeepsUnequal (final (runNative f args v)).heap := by
  by_cases hcollect : f = .collect
  · subst hcollect
    cases args with
    | nil =>
      obtain ⟨n, u, hrun, hswept⟩ := collect_swept hlive.heap hlive.roots
      show v.heap.KeepsUnequal (final ((collect >>= fun freed => do
        return Reply.value (← newLength freed)) v)).heap
      rw [bind_ok hrun]
      exact hswept.keepsUnequal hc (keepsUnequal_of_obeys _ hswept.sound (hswept.classed hc))
    | cons r rest => exact .refl
  by_cases hset : f = .hashSet
  · subst hset
    rcases args with _ | ⟨hash, _ | ⟨key, _ | ⟨value, _ | ⟨other, rest⟩⟩⟩⟩
    case cons.cons.cons.nil =>
      have hset := hashSet_keepsUnequal hlive.heap hc hash value (hargs key (by simp))
      refine final_bind (P := fun w => v.heap.KeepsUnequal w.heap) hset fun _ w hrun => ?_
      rw [hrun] at hset
      exact hset
    all_goals exact .refl
  · have := Obeys.runNative (P := LeavingTables) hcollect hset args
    have := Fitting.runNative hcollect args
    exact keepsUnequal_of_obeys _ hlive.heap hc

theorem call_keepsUnequal (hlive : v.Live) (hc : v.heap.Classed) (callee : Ref) {args : List Ref}
    (hargs : ∀ r ∈ args, v.heap.contains r = true) :
    v.heap.KeepsUnequal (final (call callee args v)).heap := by
  unfold call
  refine final_bind (P := fun w => v.heap.KeepsUnequal w.heap) ?_ fun f u hrun => ?_
  · exact keepsUnequal_of_obeys _ hlive.heap hc
  rw [Reads.of_ok hrun]
  cases f with
  | cls => exact keepsUnequal_of_obeys _ hlive.heap hc
  | arguments =>
    exact keepsUnequal_of_obeys (do return Reply.value (← newArray args)) hlive.heap hc
  | method =>
    dsimp only
    unfold callMethod
    refine final_bind (P := fun w => v.heap.KeepsUnequal w.heap) ?_ fun p u hrun => ?_
    · rw [Reads.state]
      exact .refl
    obtain ⟨hp, rfl⟩ := payload_eq_ok.mp hrun
    cases p with
    | method m =>
      dsimp only
      cases m.body with
      | native f =>
        refine runNative_keepsUnequal hlive hc f fun r hr => ?_
        rcases List.mem_append.mp hr with hr | hr
        · exact hlive.heap.closed.refs_live hp (Method.mem_refs (.inl (Option.mem_toList.mp hr)))
        · exact hargs r hr
      | _ =>
        exact keepsUnequal_of_obeys (enterLoop callee args >>= fun heights =>
          pure (Reply.entered heights.1 heights.2)) hlive.heap hc
    | _ => exact keepsUnequal_of_obeys (mismatch "method" callee : Action Reply) hlive.heap hc

end Vm

/-! ## Steps of calls -/

section Calls

variable {vm : Vm} {m : Machine} {konts : List Kont} {α : Type} {a : Action α}
  {f : α → Vm → Machine}

namespace Session

theorem continueWith_keepsUnequal {h : Heap} (hk : h.KeepsUnequal (final (a vm)).heap)
    (hf : ∀ x vm, (f x vm).vm.Same vm) :
    h.KeepsUnequal (ofOutcome (Machine.continueWith a vm konts f)).vm.heap := by
  rw [(continueWith_same hf).heap]
  exact hk

/-- After an action that gives no hash another table. -/
theorem continueWith_leaves [Obeys LeavingTables a] [Fitting a] (hlive : vm.Live)
    (hc : vm.heap.Classed) (hf : ∀ x vm, (f x vm).vm.Same vm) :
    vm.heap.KeepsUnequal (ofOutcome (Machine.continueWith a vm konts f)).vm.heap :=
  continueWith_keepsUnequal (Vm.keepsUnequal_of_obeys a hlive.heap hc) hf

end Session

namespace Machine

theorem returning_keepsUnequal (hlive : vm.Live) (hc : vm.heap.Classed) (v : Ref)
    (konts : List Kont) :
    vm.heap.KeepsUnequal (Session.ofOutcome (stepReturning v vm konts)).vm.heap := by
  rcases konts with _ | ⟨_ | _ | _ | _ | _, konts⟩
  case cons.operands | cons.attempt =>
    exact Session.continueWith_leaves hlive hc fun _ vm => .refl vm
  all_goals exact .refl

theorem raising_keepsUnequal (hlive : vm.Live) (hc : vm.heap.Classed) (e : Error)
    (konts : List Kont) :
    vm.heap.KeepsUnequal (Session.ofOutcome (stepRaising e vm konts)).vm.heap := by
  rcases konts with _ | ⟨_ | _ | _ | _ | _, konts⟩
  case cons.loop | cons.attempt | cons.guard =>
    exact Session.continueWith_leaves hlive hc fun _ vm => .refl vm
  all_goals exact .refl

theorem running_keepsUnequal (hlive : vm.Live) (hf : vm.heap.Furnished) (hc : vm.heap.Classed)
    (konts : List Kont) :
    vm.heap.KeepsUnequal (Session.ofOutcome (stepRunning vm konts)).vm.heap := by
  rcases konts with _ | ⟨_ | _ | _ | _ | _, konts⟩
  case cons.loop floor base =>
    obtain ⟨u, htick, hswept⟩ := Vm.tick_swept hlive.heap hlive.roots
    rw [stepRunning, continueWith_eq (Vm.stepLoop_after floor htick)]
    have hperform := Vm.performIn_keepsUnequal (.swept hswept) (hswept.furnished hf)
      (hswept.classed hc) floor
    refine Session.continueWith_keepsUnequal (hswept.keepsUnequal hc hperform) fun x vm => ?_
    cases x <;> exact .refl vm
  all_goals exact .refl

/-- A step of a call. -/
theorem step_keepsUnequal (hlive : m.Live) (hf : m.vm.heap.Furnished) (hc : m.vm.heap.Classed) :
    m.vm.heap.KeepsUnequal (Session.ofOutcome m.step).vm.heap := by
  unfold step
  cases hmode : m.mode with
  | running => exact running_keepsUnequal hlive.vm hf hc m.konts
  | calling callee args =>
    refine Session.continueWith_keepsUnequal ?_ (ofReply_same m.konts)
    refine Vm.call_keepsUnequal hlive.vm hc callee fun r hr => hlive.mode r ?_
    rw [hmode]
    exact List.mem_cons_of_mem _ hr
  | constructing cls args =>
    exact Session.continueWith_leaves hlive.vm hc (ofReply_same m.konts)
  | returning v => exact returning_keepsUnequal hlive.vm hc v m.konts
  | raising e => exact raising_keepsUnequal hlive.vm hc e m.konts
  | waiting request => exact .refl

end Machine

namespace Session

theorem Step.active_keepsUnequal {t : Session} (hlive : m.Live) (hf : m.vm.heap.Furnished)
    (hc : m.vm.heap.Classed) (hst : (active m).Step t) : m.vm.heap.KeepsUnequal t.vm.heap := by
  cases hst with
  | step => exact Machine.step_keepsUnequal hlive hf hc
  | answer a _ =>
    refine continueWith_keepsUnequal ?_ fun _ vm => .refl vm
    cases a with
    | message p | joined p => exact Vm.unpack_keepsUnequal hlive.vm hf hc p
    | spawned t => exact Vm.keepsUnequal_of_obeys (Vm.newTask t) hlive.vm.heap hc
    | sent => exact Vm.keepsUnequal_of_obeys Vm.nil hlive.vm.heap hc
  | collectWithin _ =>
    have hend := Vm.collect_keepsUnequal hlive.vm hc
    unfold collecting
    cases hrun : Vm.collect m.vm <;> rw [hrun] at hend <;> exact hend

end Session
end Calls

end ObjectMachine
