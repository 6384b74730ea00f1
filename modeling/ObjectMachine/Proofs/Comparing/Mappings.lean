import ObjectMachine.Proofs.Comparing.Association
import ObjectMachine.Proofs.Comparing.Operators

/-!
# ObjectMachine.Proofs.Comparing.Mappings

Hashes are equal if and only if they are the same mapping.

A comparison of hashes looks for a partner of each entry of one of them, in the order in which the
other has its entries, and asks the other way round if it finds none. Where no hash has equal keys,
both questions have the same answer: whether the entries of the two correspond one to one.

* `HashTable.Corresponds` — a correspondence of equal keys with equal values.
* `Heap.order_hashes` — the order of two hashes is that of their entries.
* `Heap.corresponds_iff` — entries that find their partners correspond.
* `Vm.hashes_equal_iff` — the result.
-/

namespace ObjectMachine

/-- Each entry of one table has its own partner in the other, with an equal key and an equal value,
and none is left over. -/
def HashTable.Corresponds (h : Heap) (s t : HashTable) : Prop :=
  ∃ g : Fin s.entries.size ≃ Fin t.entries.size, ∀ i,
    h.equals s.entries[i].1 t.entries[g i].1 = .ok true ∧
      h.equals s.entries[i].2 t.entries[g i].2 = .ok true

namespace Heap

variable {h : Heap} {a b : Ref} {s t : HashTable} {m : Nat}

/-- The entries of a value that is a hash. -/
theorem Value.table (hs : h.BuiltinOrder) (hm : m + 1 + h.nesting ≤ maxCompareDepth + 1)
    (ha : h.payload a = .ok (.hash s)) (hva : h.Value (m + 1) a) :
    Table (h.Value m) (h.order m) s.entries.toList := by
  obtain ⟨p, hp, -, hkeys, hparts⟩ := hva
  rw [ha] at hp
  cases hp
  exact table_of_value hs (by omega) (hkeys s rfl) hparts

/-- What a hash contains, if its entries are values. -/
theorem nests_parts (hs : h.BuiltinOrder) (hes : Table (h.Value m) (h.order m) s.entries.toList) :
    ∀ x ∈ (Payload.hash s).parts, h.Nests m x := by
  intro x hx
  simp only [Payload.parts, HashTable.keys, HashTable.values, Array.toList_map, List.mem_append,
    List.mem_map] at hx
  rcases hx with ⟨e, he, rfl⟩ | ⟨e, he, rfl⟩
  · exact (hes.key e he).nests hs
  · exact (hes.value e he).nests hs

theorem orderEntries_self (hs : h.BuiltinOrder) (hm : m + h.nesting ≤ maxCompareDepth + 1)
    {es : List (Ref × Ref)} (hes : Table (h.Value m) (h.order m) es) :
    orderEntries (h.order m) es es = some .eq :=
  (orderEntries_eq_some_iff (order_consistent hs hm) hes hes).mpr
    ⟨rfl, fun e he => ⟨e, he, order_self m, order_self m⟩⟩

/-- Hashes are in the order of their entries, whichever of the two is asked. -/
theorem order_hashes (hs : h.BuiltinOrder) (hm : m + 1 + h.nesting ≤ maxCompareDepth + 1)
    (ha : h.payload a = .ok (.hash s)) (hb : h.payload b = .ok (.hash t))
    (hes : Table (h.Value m) (h.order m) s.entries.toList)
    (hfs : Table (h.Value m) (h.order m) t.entries.toList) :
    h.order (m + 1) a b = orderEntries (h.order m) s.entries.toList t.entries.toList := by
  have hc := order_consistent (m := m) hs (by omega)
  by_cases hne : a = b
  · subst hne
    rw [ha] at hb
    cases hb
    rw [order_self, orderEntries_self hs (by omega) hes]
  · rw [order_of_nests hne (hs.answers ha) (nests_parts hs hes) (hs.answers hb)
      (nests_parts hs hfs)]
    show bothWays (orderEntries _ _ _) (orderEntries _ _ _) = _
    rw [hc.entries.swap hes hfs, bothWays_swap]

theorem compare_hashes (hs : h.BuiltinOrder) (hm : m + 1 + h.nesting ≤ maxCompareDepth + 1)
    (ha : h.payload a = .ok (.hash s)) (hb : h.payload b = .ok (.hash t))
    (hes : Table (h.Value m) (h.order m) s.entries.toList)
    (hfs : Table (h.Value m) (h.order m) t.entries.toList) :
    h.compare a b = .ok (orderEntries (h.order m) s.entries.toList t.entries.toList) := by
  rw [← order_hashes hs hm ha hb hes hfs]
  have hna : h.Nests (m + 1) a := ⟨_, hs.answers ha, nests_parts hs hes⟩
  have hnb : h.Nests (m + 1) b := ⟨_, hs.answers hb, nests_parts hs hfs⟩
  exact compareWithin_of_nests hna hnb (by omega)

/-- The same entries in other places. -/
theorem corresponds_of_eq (g : Fin s.entries.size ≃ Fin t.entries.size)
    (hg : ∀ i, s.entries[i] = t.entries[g i]) : s.Corresponds h t := by
  refine ⟨g, fun i => ?_⟩
  rw [hg i]
  exact ⟨equals_self, equals_self⟩

/-- Between hashes that are values, the partners that entries find are a correspondence. -/
theorem corresponds_iff (hs : h.BuiltinOrder) (hm : m + h.nesting ≤ maxCompareDepth + 1)
    (hes : Table (h.Value m) (h.order m) s.entries.toList)
    (hfs : Table (h.Value m) (h.order m) t.entries.toList) :
    s.Corresponds h t ↔
      orderEntries (h.order m) s.entries.toList t.entries.toList = some .eq := by
  have hc := order_consistent hs hm
  have hequals : ∀ {x y : Ref}, h.Value m x → h.Value m y →
      (h.equals x y = .ok true ↔ h.order m x y = some .eq) := by
    intro x y hx hy
    rw [equals_of_nests hm (hx.nests hs) (hy.nests hs)]
    simp
  have hentry : ∀ (i : Fin s.entries.size) (j : Fin t.entries.size),
      (h.equals s.entries[i].1 t.entries[j].1 = .ok true ↔
        h.order m s.entries[i].1 t.entries[j].1 = some .eq) ∧
      (h.equals s.entries[i].2 t.entries[j].2 = .ok true ↔
        h.order m s.entries[i].2 t.entries[j].2 = some .eq) := fun i j =>
    have hi := Array.getElem_mem_toList i.isLt
    have hj := Array.getElem_mem_toList j.isLt
    ⟨hequals (hes.key _ hi) (hfs.key _ hj), hequals (hes.value _ hi) (hfs.value _ hj)⟩
  rw [orderEntries_eq_some_iff hc hes hfs]
  constructor
  · rintro ⟨g, hg⟩
    have hlen : s.entries.toList.length = t.entries.toList.length := by
      simpa using Fintype.card_congr g
    exact ⟨hlen, Matches.of_equiv g fun i =>
      ⟨(hentry i (g i)).1.mp (hg i).1, (hentry i (g i)).2.mp (hg i).2⟩⟩
  · rintro ⟨hlen, hmatch⟩
    obtain ⟨g, hg⟩ := hmatch.equiv hc hes hfs hlen
    exact ⟨g, fun i => ⟨(hentry i (g i)).1.mpr (hg i).1, (hentry i (g i)).2.mpr (hg i).2⟩⟩

end Heap

namespace Vm

/-- Two hashes are equal if and only if their entries correspond one to one, equal keys with equal
values, and otherwise they are not comparable; neither is ever less than the other. It does not
matter in which order the entries of either were put in. This holds of values as deep as a
comparison goes, so of all that can be sent and of hashes of such, if no hash in them has equal
keys and no number has a fraction. -/
theorem hashes_equal_iff (vm : Vm) (hslots : vm.heap.BuiltinOrder) {levels : Nat}
    (hlevels : levels + vm.heap.nesting ≤ maxCompareDepth + 1) {a b : Ref} {s t : HashTable}
    (ha : vm.heap.payload a = .ok (.hash s)) (hb : vm.heap.payload b = .ok (.hash t))
    (hva : vm.heap.Value levels a) (hvb : vm.heap.Value levels b) :
    (vm.heap.compare a b = .ok (some .eq) ↔ s.Corresponds vm.heap t) ∧
    (vm.heap.compare a b = .ok none ↔ ¬ s.Corresponds vm.heap t) ∧
    ∀ a' b' s' t', vm.heap.payload a' = .ok (.hash s') → vm.heap.payload b' = .ok (.hash t') →
      s.entries.toList.Perm s'.entries.toList → t.entries.toList.Perm t'.entries.toList →
      vm.heap.compare a' b' = vm.heap.compare a b := by
  cases levels with
  | zero => exact hva.elim
  | succ m =>
    have hc := Heap.order_consistent (m := m) hslots (by omega)
    have hes := hva.table hslots hlevels ha
    have hfs := hvb.table hslots hlevels hb
    have hcompare := Heap.compare_hashes hslots hlevels ha hb hes hfs
    have hiff := Heap.corresponds_iff hslots (by omega) hes hfs
    refine ⟨by rw [hcompare, hiff]; simp, ?_, ?_⟩
    · rw [hcompare, hiff]
      rcases orderEntries_eq_or_none (c := vm.heap.order m) s.entries.toList t.entries.toList with
        heq | hnone
      · simp [heq]
      · simp [hnone]
    · intro a' b' s' t' ha' hb' hperm hperm'
      have hes' := hes.perm hc hperm
      have hfs' := hfs.perm hc hperm'
      rw [hcompare, Heap.compare_hashes hslots hlevels ha' hb' hes' hfs',
        orderEntries_perm hc hes hfs hperm hperm']

/-! A second hash beside the one that maps the truth values to nil, with its entries the other way
round. -/

def mirrored : HashTable := ⟨#[(boolRef 0 false, nilRef 0), (boolRef 0 true, nilRef 0)]⟩

def withMirror : Vm := Action.final (new .hash (.hash mirrored) withTruths)

/-- The second hash. -/
def mirrorRef : Ref := ⟨0, 44, 0⟩

theorem withMirror_grows : Grows none withTruths withMirror ∧
    withMirror.heap.payload mirrorRef = .ok (.hash mirrored) := by
  obtain ⟨r, vm, hrun, hgrow, -, hr⟩ :=
    new_builds_plain (p := .hash mirrored) withTruths_regular rfl (by decide)
  rw [withMirror, hrun]
  refine ⟨hgrow, ?_⟩
  rw [new_eq] at hrun
  cases hrun
  exact hr

theorem value_mirror (b : Bool) {r : Ref} {t : HashTable}
    (hr : withMirror.heap.payload r = .ok (.hash t))
    (hkeys : t.keys.toList = [boolRef 0 b, boolRef 0 !b])
    (hvalues : t.values.toList = [nilRef 0, nilRef 0]) :
    withMirror.heap.Value (maxPackDepth + 1) r := by
  obtain ⟨hgrow, -⟩ := withMirror_grows
  have hbool : ∀ c, withMirror.heap.Value maxPackDepth (boolRef 0 c) := fun c =>
    ⟨_, hgrow.payload (by simp) (payload_truths_bool c), by rintro _ ⟨⟩, by rintro _ ⟨⟩,
      by simp [Payload.parts]⟩
  have hnil : withMirror.heap.Value maxPackDepth (nilRef 0) :=
    ⟨_, hgrow.payload (by simp) payload_truths_nil, by rintro _ ⟨⟩, by rintro _ ⟨⟩,
      by simp [Payload.parts]⟩
  refine ⟨_, hr, by rintro _ ⟨⟩, ?_, fun x hx => ?_⟩
  · rintro _ ⟨⟩
    rw [Heap.KeysUnequal, hkeys, List.pairwise_pair]
    have hunequal : ∀ c, withMirror.heap.equals (boolRef 0 c) (boolRef 0 !c) = .ok false := by
      decide +kernel
    exact hunequal b
  · simp only [Payload.parts, hkeys, hvalues, List.cons_append, List.nil_append, List.mem_cons,
      List.not_mem_nil, or_false] at hx
    rcases hx with rfl | rfl | rfl | rfl
    · exact hbool b
    · exact hbool !b
    · exact hnil
    · exact hnil

/-- The two hashes are equal. -/
theorem hashes_equal_iff_mirror :
    withMirror.heap.BuiltinOrder ∧
    maxPackDepth + 1 + withMirror.heap.nesting ≤ maxCompareDepth + 1 ∧
    withMirror.heap.payload truthsRef = .ok (.hash truths) ∧
    withMirror.heap.payload mirrorRef = .ok (.hash mirrored) ∧
    withMirror.heap.Value (maxPackDepth + 1) truthsRef ∧
    withMirror.heap.Value (maxPackDepth + 1) mirrorRef ∧
    withMirror.heap.compare truthsRef mirrorRef = .ok (some .eq) := by
  obtain ⟨hgrow, hmirror⟩ := withMirror_grows
  have hslots := hgrow.regular.heap.toByKind.builtinOrder
  have hlevels : maxPackDepth + 1 + withMirror.heap.nesting ≤ maxCompareDepth + 1 := by
    rw [hgrow.regular.heap.nesting]
    decide
  have htruths := hgrow.payload (by simp) payload_truths
  have hva := value_mirror true htruths (by simp [truths, HashTable.keys])
    (by simp [truths, HashTable.values])
  have hvb := value_mirror false hmirror (by simp [mirrored, HashTable.keys])
    (by simp [mirrored, HashTable.values])
  refine ⟨hslots, hlevels, htruths, hmirror, hva, hvb, ?_⟩
  exact (hashes_equal_iff withMirror hslots hlevels htruths hmirror hva hvb).1.mpr
    (Heap.corresponds_of_eq (Fin.revPerm : Equiv.Perm (Fin 2)) (by decide))

end Vm
end ObjectMachine
