import ObjectMachine.Proofs.Copying.Rebuilding

/-!
# ObjectMachine.Proofs.Copying.RoundTrip

Copies of values: packing and rebuilding.

* `Heap.Part`, `Heap.parts` — what a value consists of.
* `Vm.Regular.faithful` — what is packed can be rebuilt.
* `Vm.unpack_pack` — a copy has the tree of the original.
* `Vm.equals_unpack_pack` — a copy of plain data equals the original.
-/

namespace ObjectMachine

namespace Heap

/-- What the value `v` consists of: itself, what containers in it contain, causes of errors,
receivers of methods and the values of captured variables. -/
inductive Part (h : Heap) (v : Ref) : Ref → Prop where
  | self : Part h v v
  | item {x r : Ref} {items : Array Ref} :
      Part h v x → h.payload x = .ok (.array items) → r ∈ items → Part h v r
  | key {x r : Ref} {t : HashTable} :
      Part h v x → h.payload x = .ok (.hash t) → r ∈ t.keys → Part h v r
  | value {x r : Ref} {t : HashTable} :
      Part h v x → h.payload x = .ok (.hash t) → r ∈ t.values → Part h v r
  | cause {x r : Ref} {e : ErrorInfo} :
      Part h v x → h.payload x = .ok (.error e) → e.cause = some r → Part h v r
  | receiver {x r : Ref} {m : Method} :
      Part h v x → h.payload x = .ok (.method m) → m.receiver = some r → Part h v r
  | captured {x r code : Ref} {m : Method} {module : Option Ref} {bindings : NameMap Ref}
      {b : String × Ref} : Part h v x → h.payload x = .ok (.method m) →
      m.body = .closure code module bindings → b ∈ bindings.entries →
      h.payload b.2 = .ok (.var (some r)) → Part h v r

/-- The parts of a value, and what packing it reads beside them. -/
def parts (h : Heap) (v : Ref) : View := fun r p =>
  h.payload r = .ok p ∧ (h.Part v r ∨ p.Aid)

variable {h : Heap} {v : Ref}

theorem parts_view : h.parts v ≤ h.view := fun _ _ hr => hr.1

/-- A part of a value has its tree among the parts. -/
theorem tree_parts : ∀ {m : Nat} {r : Ref} {p : Packed},
    h.Part v r → h.view.Tree m r p → (h.parts v).Tree m r p := by
  intro m
  induction m with
  | zero => intro r p _ ht; exact ht.elim
  | succ m ih =>
    intro r p hr ht
    obtain ⟨o, ho, hp⟩ := ht
    have hcode : ∀ {code unit}, h.view.Code code unit → (h.parts v).Code code unit := by
      rintro code unit ⟨c, hc, hunit⟩
      exact ⟨c, ⟨hc, .inr trivial⟩, hunit⟩
    have hnamed : ∀ {module name}, h.view.Named module name → (h.parts v).Named module name := by
      intro module name hn
      refine optionRel_imp hn ?_
      rintro s - n - ⟨d, hd, hname⟩
      exact ⟨d, ⟨hd, .inr trivial⟩, hname⟩
    refine ⟨o, ⟨ho, .inl hr⟩, ?_⟩
    cases hp with
    | nil => exact .nil
    | bool b => exact .bool b
    | int i => exact .int i
    | float x => exact .float x
    | str b => exact .str b
    | task t => exact .task t
    | array hps =>
      refine .array (forall₂_imp hps fun x hx q _ hq => ih (.item hr ho ?_) hq)
      exact Array.mem_toList_iff.mp hx
    | hash hqs =>
      refine .hash (forall₂_imp hqs fun e he q _ hq => ⟨ih (.key hr ho ?_) hq.1,
        ih (.value hr ho ?_) hq.2⟩)
      · exact Array.mem_map_of_mem (Array.mem_toList_iff.mp he)
      · exact Array.mem_map_of_mem (Array.mem_toList_iff.mp he)
    | error hcause => exact .error (optionRel_imp hcause fun x hx q _ => ih (.cause hr ho hx))
    | @method d _ _ hbody hrec =>
      refine .method ?_ (optionRel_imp hrec fun x hx q _ => ih (.receiver hr ho hx))
      generalize hb : d.body = body at hbody
      cases hbody with
      | native f => exact .native f
      | bytecode hc hn => exact .bytecode (hcode hc) (hnamed hn)
      | closure hc hn hps =>
        refine .closure (hcode hc) (hnamed hn) (forall₂_imp hps ?_)
        rintro b hmem q - ⟨hname, value, hvar, hvalue⟩
        refine ⟨hname, value, ⟨hvar, .inr trivial⟩, optionRel_imp hvalue ?_⟩
        rintro x rfl p -
        exact ih (.captured hr ho hb hmem hvar)

end Heap

/-- What a regular state packs can be rebuilt, if no hash has keys with equal trees. -/
theorem Vm.Regular.faithful {vm : Vm} (hv : vm.Regular) {V : View} (hV : V ≤ vm.heap.view)
    {N : Nat} (hkeys : ∀ m < N, ∀ (x : Ref) (t : HashTable) (qs : List (Packed × Packed)),
      V x (.hash t) →
      List.Forall₂ (fun e q => V.Tree m e.1 q.1 ∧ V.Tree m e.2 q.2) t.entries.toList qs →
      qs.Pairwise fun e f => Packed.order m e.1 f.1 ≠ some .eq) :
    ∀ {m : Nat}, m ≤ N → ∀ {r : Ref} {p : Packed}, V.Tree m r p → p.Faithful vm.registry m := by
  intro m
  induction m with
  | zero => intro _ r p ht; exact ht.elim
  | succ m ih =>
    intro hm r p ht
    obtain ⟨o, ho, hp⟩ := ht
    have hbelow : ∀ {x q}, V.Tree m x q → q.Faithful vm.registry m := ih (by omega)
    have hoption : ∀ {x : Option Ref} {q : Option Packed}, Option.Rel (V.Tree m) x q →
        ∀ s ∈ q, s.Faithful vm.registry m := by
      intro x q hq s hs
      cases hq with
      | none => cases hs
      | some hq =>
        cases hs
        exact hbelow hq
    have hmodule : ∀ {module name}, V.Named module name →
        ∀ n ∈ name, (vm.registry.find? n).isSome = true := by
      intro module name hname n hn
      cases hname with
      | none => cases hn
      | some hd =>
        obtain ⟨d, hd, hdn⟩ := hd
        cases hn
        rw [← hdn]
        exact hv.registered _ d (hV _ _ hd)
    cases hp with
    | nil => trivial
    | bool b => trivial
    | int i => trivial
    | float x => trivial
    | str b => trivial
    | task t => trivial
    | array hps =>
      intro q hq
      obtain ⟨x, -, hx⟩ := forall₂_mem_right hps hq
      exact hbelow hx
    | hash hqs =>
      refine ⟨?_, hkeys m (by omega) r _ _ ho hqs⟩
      intro e he
      obtain ⟨x, -, hx⟩ := forall₂_mem_right hqs he
      exact ⟨hbelow hx.1, hbelow hx.2⟩
    | error hcause => exact hoption hcause
    | @method d _ _ hbody hrec =>
      refine ⟨?_, hoption hrec⟩
      have honce := hv.closures r d (hV _ _ ho)
      generalize d.body = body at hbody honce
      cases hbody with
      | native f => trivial
      | bytecode hc hn => exact hmodule hn
      | @closure _ _ bindings _ _ ps hc hn hps =>
        have hnames : ps.map Prod.fst = bindings.names := by
          rw [NameMap.names, eq_comm, ← List.forall₂_eq_eq_eq, List.forall₂_map_left_iff,
            List.forall₂_map_right_iff]
          exact hps.imp fun _ _ hb => hb.1
        have hperm := NameMap.sortByName_perm ps
        refine ⟨hmodule hn, ?_, NameMap.sortByName_sorted ps, ?_⟩
        · rw [(hperm.map Prod.fst).nodup_iff, hnames]
          exact honce
        · intro b hb
          obtain ⟨c, -, -, value, -, hvalue⟩ := forall₂_mem_right hps (hperm.mem_iff.mp hb)
          exact hoption hvalue

namespace Vm

variable {vm : Vm} {v : Ref} {p : Packed}

/-- Keys of which none equals two keys of one hash have trees that are not equal. -/
theorem Regular.apart_of_separate (hv : vm.Regular) {V : View} (hV : V ≤ vm.heap.view)
    (hsep : vm.heap.Separate V) {m : Nat} (hm : m ≤ maxCompareDepth + 1) {x : Ref} {t : HashTable}
    {qs : List (Packed × Packed)} (hx : V x (.hash t))
    (hqs : List.Forall₂ (fun e q => V.Tree m e.1 q.1 ∧ V.Tree m e.2 q.2) t.entries.toList qs) :
    qs.Pairwise fun e f => Packed.order m e.1 f.1 ≠ some .eq := by
  have hk := hv.heap.toByKind
  have hequals : ∀ {k l : Ref} {q s : Packed}, V.Tree m k q → V.Tree m l s →
      vm.heap.order m k l = some .eq → vm.heap.equals k l = .ok true := by
    intro k l q s hkq hls heq
    rw [Heap.equals_eq hk hv.heap.nesting hm (hkq.mono hV (Nat.le_refl m))
      (hls.mono hV (Nat.le_refl m)), heq]
    rfl
  rw [List.pairwise_iff_getElem]
  intro i j hi hj hij heq
  obtain ⟨k, hki, hkq⟩ := View.key_of_tree hqs (List.getElem?_eq_getElem hi)
  obtain ⟨l, hlj, hlq⟩ := View.key_of_tree hqs (List.getElem?_eq_getElem hj)
  have hkl := hequals hkq hlq (Heap.order_of_tree hk hv.heap.nesting hV hsep hm hkq hlq heq)
  have hll := hequals hlq hlq (Heap.order_self m)
  have := hsep x x t t hx hx l (Array.mem_of_getElem? hlj) i j k l hki hlj hkl hll
  omega

/-- A copy has the tree of the original: with keys of which none equals two keys of one hash, what
one regular state packs is rebuilt by any other with the same modules, as a value that packs to the
same tree; everything that was there before stays as it was. -/
theorem unpack_pack (vm vm' : Vm) (v : Ref) (p : Packed) (hv : vm.Regular) (hv' : vm'.Regular)
    (hreg : vm'.registry = vm.registry) (hpack : vm.heap.pack v = .ok p)
    (hsep : vm.heap.Separate (vm.heap.parts v)) :
    ∃ w vm'', unpack p vm' = .ok w vm'' ∧ Grows none vm' vm'' ∧ vm''.heap.pack w = .ok p := by
  have hV : vm.heap.parts v ≤ vm.heap.view := Heap.parts_view
  have htree := Heap.tree_parts .self (Heap.packWithin_eq_ok.mp hpack)
  have hdepth : maxPackDepth + 1 ≤ maxCompareDepth + 1 := by decide
  have hfaithful := hv.faithful hV (fun m hm x t qs hx hqs =>
    hv.apart_of_separate hV hsep (Nat.le_of_lt hm) hx hqs) hdepth htree
  obtain ⟨w, vm'', hrun, hgrow, hw⟩ := unpack_builds vm.registry hdepth hfaithful vm' hv' hreg
  exact ⟨w, vm'', hrun, hgrow,
    Heap.packWithin_eq_ok.mpr (hw.mono made_view (Nat.le_refl _))⟩

/-! A new task with a hash that maps both truth values to nil. -/

def truths : HashTable := ⟨#[(boolRef 0 true, nilRef 0), (boolRef 0 false, nilRef 0)]⟩

def withTruths : Vm := Action.final (new .hash (.hash truths) (boot {} {} 0 ⟨0, 0⟩))

/-- The hash. -/
def truthsRef : Ref := ⟨0, 43, 0⟩

def packedTruths : Packed := .hash [(.bool true, .nil), (.bool false, .nil)]

theorem withTruths_regular : withTruths.Regular := by
  obtain ⟨r, vm, hrun, hgrow, -⟩ :=
    new_builds_plain (p := .hash truths) (boot_regular {} {} 0 ⟨0, 0⟩) rfl (by decide)
  rw [withTruths, hrun]
  exact hgrow.regular

theorem payload_truths : withTruths.heap.payload truthsRef = .ok (.hash truths) := by
  obtain ⟨r, vm, hrun, -, -, hr⟩ :=
    new_builds_plain (p := .hash truths) (boot_regular {} {} 0 ⟨0, 0⟩) rfl (by decide)
  rw [new_eq] at hrun
  cases hrun
  exact hr

theorem payload_truths_nil : withTruths.heap.payload (nilRef 0) = .ok .nil :=
  withTruths_regular.heap.nilLive

theorem payload_truths_bool (b : Bool) : withTruths.heap.payload (boolRef 0 b) = .ok (.bool b) :=
  withTruths_regular.heap.boolLive b

theorem pack_truths : withTruths.heap.pack truthsRef = .ok packedTruths := by
  refine Heap.packWithin_eq_ok.mpr ⟨_, payload_truths, .hash ?_⟩
  have hentry (b : Bool) : withTruths.heap.view.Tree maxPackDepth (boolRef 0 b) (.bool b) ∧
      withTruths.heap.view.Tree maxPackDepth (nilRef 0) .nil :=
    ⟨⟨_, payload_truths_bool b, .bool b⟩, ⟨_, payload_truths_nil, .nil⟩⟩
  exact .cons (hentry true) (.cons (hentry false) .nil)

theorem equals_truths (b c : Bool) :
    withTruths.heap.equals (boolRef 0 b) (boolRef 0 c) = .ok (b == c) := by
  revert b c
  decide +kernel

theorem keys_truths {i : Nat} {k : Ref} (hk : truths.keys[i]? = some k) :
    ∃ b, k = boolRef 0 b ∧ i = cond b 0 1 := by
  have hkeys : truths.keys = #[boolRef 0 true, boolRef 0 false] := by
    simp [truths, HashTable.keys]
  rw [hkeys] at hk
  rcases i with _ | _ | i
  · exact ⟨true, by simpa using hk.symm, rfl⟩
  · exact ⟨false, by simpa using hk.symm, rfl⟩
  · simp at hk

/-- The hash consists of itself, the truth values and nil. -/
theorem part_truths {r : Ref} {o : Payload} (hr : withTruths.heap.Part truthsRef r)
    (ho : withTruths.heap.payload r = .ok o) :
    o = .hash truths ∨ (∃ b, o = .bool b) ∨ o = .nil := by
  have hvalue : ∀ {x}, x ∈ truths.values → x = nilRef 0 := by
    intro x hx
    simpa [truths, HashTable.values] using hx
  induction hr generalizing o with
  | self => exact .inl (Except.ok.inj (ho.symm.trans payload_truths))
  | item _ hx _ ih => rcases ih hx with heq | ⟨b, heq⟩ | heq <;> cases heq
  | cause _ hx _ ih => rcases ih hx with heq | ⟨b, heq⟩ | heq <;> cases heq
  | receiver _ hx _ ih => rcases ih hx with heq | ⟨b, heq⟩ | heq <;> cases heq
  | captured _ hx _ _ _ ih => rcases ih hx with heq | ⟨b, heq⟩ | heq <;> cases heq
  | key _ hx hmem ih =>
    rcases ih hx with heq | ⟨b, heq⟩ | heq <;> cases heq
    obtain ⟨i, hi⟩ := Array.mem_iff_getElem?.mp hmem
    obtain ⟨b, rfl, -⟩ := keys_truths hi
    exact .inr (.inl ⟨b, Except.ok.inj (ho.symm.trans (payload_truths_bool b))⟩)
  | value _ hx hmem ih =>
    rcases ih hx with heq | ⟨b, heq⟩ | heq <;> cases heq
    obtain rfl := hvalue hmem
    exact .inr (.inr (Except.ok.inj (ho.symm.trans payload_truths_nil)))

theorem hash_truths {r : Ref} {t : HashTable}
    (hr : withTruths.heap.parts truthsRef r (.hash t)) : t = truths := by
  obtain ⟨ho, hpart | haid⟩ := hr
  · rcases part_truths hpart ho with heq | ⟨b, heq⟩ | heq <;> cases heq
    rfl
  · exact haid.elim

theorem unpack_pack_truths :
    withTruths.Regular ∧ withTruths.heap.pack truthsRef = .ok packedTruths ∧
    withTruths.heap.Separate (withTruths.heap.parts truthsRef) ∧
    ∃ w vm, unpack packedTruths (boot {} {} 1 ⟨0, 1⟩) = .ok w vm ∧
      Grows none (boot {} {} 1 ⟨0, 1⟩) vm ∧ vm.heap.pack w = .ok packedTruths := by
  have hsep : withTruths.heap.Separate (withTruths.heap.parts truthsRef) := by
    intro x y s t hs ht key hkey i j k l hi hj hk hl
    obtain rfl := hash_truths hs
    obtain rfl := hash_truths ht
    obtain ⟨n, hn⟩ := Array.mem_iff_getElem?.mp hkey
    obtain ⟨a, rfl, -⟩ := keys_truths hn
    obtain ⟨b, rfl, hb⟩ := keys_truths hi
    obtain ⟨c, rfl, hc⟩ := keys_truths hj
    rw [equals_truths] at hk hl
    have hba : b = a := beq_iff_eq.mp (Except.ok.inj hk)
    have hca : c = a := beq_iff_eq.mp (Except.ok.inj hl)
    rw [hb, hc, hba, hca]
  exact ⟨withTruths_regular, pack_truths, hsep,
    unpack_pack withTruths (boot {} {} 1 ⟨0, 1⟩) truthsRef packedTruths withTruths_regular
      (boot_regular {} {} 1 ⟨0, 1⟩) rfl pack_truths hsep⟩

/-- A copy of plain data equals the original, however deep it goes: nil, truth values, integers,
strings, tasks, and arrays and hashes of such without equal keys. Comparing them takes no more
levels than packing does, nor does comparing any two values that can be packed. -/
theorem equals_unpack_pack (vm : Vm) (v : Ref) (p : Packed) (hv : vm.Regular)
    (hpack : vm.heap.pack v = .ok p)
    (hdata : ∀ r o, vm.heap.Part v r → vm.heap.payload r = .ok o → o.Data)
    (hkeys : vm.heap.KeysApart (vm.heap.parts v)) :
    (∃ w vm', unpack p vm = .ok w vm' ∧ vm'.heap.equals w v = .ok true ∧
      ∀ levels, maxPackDepth < levels → vm'.heap.compareWithin levels w v = .ok (some .eq)) ∧
    ∀ b q, vm.heap.pack b = .ok q → ∀ levels, maxPackDepth < levels →
      vm.heap.compareWithin levels v b = vm.heap.compare v b := by
  have hk := hv.heap.toByKind
  have hV : vm.heap.parts v ≤ vm.heap.view := Heap.parts_view
  have hview := Heap.packWithin_eq_ok.mp hpack
  have htree := Heap.tree_parts .self hview
  have hdepth : maxPackDepth + 1 ≤ maxCompareDepth + 1 := by decide
  have hdata' : ∀ r o, vm.heap.parts v r o → o.Data ∨ o.Aid := by
    rintro r o ⟨ho, hpart | haid⟩
    · exact .inl (hdata r o hpart ho)
    · exact .inr haid
  have hrefl : ∀ {m : Nat}, m ≤ maxCompareDepth + 1 → ∀ {a : Ref} {q : Packed},
      (vm.heap.parts v).Tree m a q → Packed.order m q q = some .eq :=
    Heap.order_refl hk hv.heap.nesting hV hdata' hkeys
  have hfaithful := hv.faithful hV (fun m hm x t qs hx hqs => by
    have hagree : (vm.heap.parts v).Agree (vm.heap.parts v) m :=
      Heap.agree_of_refl hV fun k hkm a q ha => hrefl (by omega) ha
    rw [List.pairwise_iff_getElem]
    intro i j hi hj hij
    exact Heap.keys_apart_of_agree hk hv.heap.nesting hV hkeys (by omega) hagree hx hqs
      (Nat.ne_of_lt hij) (List.getElem?_eq_getElem hi) (List.getElem?_eq_getElem hj))
    hdepth htree
  refine ⟨?_, ?_⟩
  · obtain ⟨w, vm', hrun, hgrow, hw⟩ := unpack_builds vm.registry hdepth hfaithful vm hv rfl
    have hregular := hgrow.regular.heap
    have hview' : vm.heap.view ≤ vm'.heap.view := fun _ _ ho => hgrow.payload nofun ho
    have hvw : vm'.heap.order (maxPackDepth + 1) w v = some .eq := by
      rw [Heap.order_eq_tree hregular.toByKind made_view (le_trans hV hview')
        (agree_made hV hgrow _).symm hw htree]
      exact hrefl hdepth htree
    have hw' := hw.mono made_view (Nat.le_refl _)
    have hv' := hview.mono hview' (Nat.le_refl _)
    refine ⟨w, vm', hrun, ?_, ?_⟩
    · rw [Heap.equals_eq hregular.toByKind hregular.nesting hdepth hw' hv', hvw]
      rfl
    · intro levels hlevels
      rw [Heap.compareWithin_eq_order hregular.toByKind hw' hv' hlevels, hvw]
  · intro b q hb levels hlevels
    have hb' := Heap.packWithin_eq_ok.mp hb
    rw [Heap.compare, hv.heap.nesting, Nat.sub_zero,
      Heap.compareWithin_eq_order hk hview hb' hlevels,
      Heap.compareWithin_eq_order hk hview hb' hdepth]

theorem equals_unpack_pack_truths :
    withTruths.Regular ∧ withTruths.heap.pack truthsRef = .ok packedTruths ∧
    ∃ w vm, unpack packedTruths withTruths = .ok w vm ∧ vm.heap.equals w truthsRef = .ok true := by
  have hdata : ∀ r o, withTruths.heap.Part truthsRef r → withTruths.heap.payload r = .ok o →
      o.Data := by
    intro r o hr ho
    rcases part_truths hr ho with rfl | ⟨b, rfl⟩ | rfl <;> trivial
  have hkeys : withTruths.heap.KeysApart (withTruths.heap.parts truthsRef) := by
    intro x t ht i j k l hij hi hj
    obtain rfl := hash_truths ht
    obtain ⟨b, rfl, hb⟩ := keys_truths hi
    obtain ⟨c, rfl, hc⟩ := keys_truths hj
    have hbc : b ≠ c := fun heq => hij (by rw [hb, hc, heq])
    rw [equals_truths, beq_eq_false_iff_ne.mpr hbc]
  obtain ⟨⟨w, vm, hrun, hequals, -⟩, -⟩ :=
    equals_unpack_pack withTruths truthsRef packedTruths withTruths_regular pack_truths hdata hkeys
  exact ⟨withTruths_regular, pack_truths, w, vm, hrun, hequals⟩

end Vm
end ObjectMachine
